import Criteria.Validation
import Mathlib.Data.List.Forall2

/-! The parts of a report, told apart by their codes. -/
namespace Criteria.Validation

variable {α : Type} {base : Option Path} {allowed : AllowList} {r : ReadRequest} {v : Value}
  {f : Finding}

/-- The findings with one of the given codes. -/
def Report.of (report : Report) (codes : List Code) : List Finding :=
  report.items.filter (·.code ∈ codes)

/-- The codes in the order in which a report takes them up, those of one check together. -/
def Code.groups : List (List Code) :=
  [[unknownColumn], [emptyList], [unknownOrderColumn], [nonIntegerLimit, negativeLimit],
    [nonIntegerOffset, negativeOffset]]

/-- The findings of each check. -/
def parts (base : Option Path) (allowed : AllowList) (r : ReadRequest) : List (List Finding) :=
  [unknownColumns base allowed r.fields, emptyLists base r.fields,
    (r.order.map (unknownTerms base allowed)).getD [],
    (r.limit.map (bound base "limit" .nonIntegerLimit .negativeLimit)).getD [],
    (r.offset.map (bound base "offset" .nonIntegerOffset .negativeOffset)).getD []]

theorem items_readAt : (readAt base allowed r).items = (parts base allowed r).flatten := by
  simp [readAt, parts]

theorem code_of_mem_bound {key : String} {nonInteger negative : Code}
    (hf : f ∈ bound base key nonInteger negative v) : f.code ∈ [nonInteger, negative] := by
  unfold bound at hf
  grind

theorem code_of_mem_map {as : List α} {field message : α → String} {code : Code} :
    ∀ f ∈ as.map fun a => Finding.mk (field a) code (message a), f.code ∈ [code] := by
  intro f hf
  obtain ⟨a, -, rfl⟩ := List.mem_map.mp hf
  exact List.mem_singleton_self code

theorem code_of_mem_getD {o : Option α} {g : α → List Finding} {codes : List Code}
    (h : ∀ a, ∀ f ∈ g a, f.code ∈ codes) : ∀ f ∈ (o.map g).getD [], f.code ∈ codes := by
  cases o with
  | none => exact fun _ hf => absurd hf List.not_mem_nil
  | some a => exact h a

theorem code_of_mem_parts : List.Forall₂ (fun codes fs => ∀ f ∈ fs, f.code ∈ codes) Code.groups
    (parts base allowed r) := by
  refine .cons ?_ (.cons ?_ (.cons ?_ (.cons ?_ (.cons ?_ .nil))))
  · exact code_of_mem_map
  · exact code_of_mem_map
  · exact code_of_mem_getD fun _ => code_of_mem_map
  · exact code_of_mem_getD fun _ _ => code_of_mem_bound
  · exact code_of_mem_getD fun _ _ => code_of_mem_bound

variable {groups : List (List Code)} {fss : List (List Finding)}

theorem exists_group (h : List.Forall₂ (fun codes fs => ∀ f ∈ fs, f.code ∈ codes) groups fss) :
    ∀ f ∈ fss.flatten, ∃ codes ∈ groups, f.code ∈ codes := by
  induction h with
  | nil => simp
  | @cons codes fs groups fss hfs _ ih =>
    intro f hf
    rcases List.mem_append.mp hf with hf | hf
    · exact ⟨codes, List.mem_cons_self, hfs f hf⟩
    · obtain ⟨codes, hcodes, hf⟩ := ih f hf
      exact ⟨codes, List.mem_cons_of_mem _ hcodes, hf⟩

/-- Checks whose codes differ can be told apart in what they find together. -/
theorem filter_flatten
    (h : List.Forall₂ (fun codes fs => ∀ f ∈ fs, f.code ∈ codes) groups fss)
    (hgroups : groups.Pairwise fun codes others => ∀ c ∈ codes, c ∉ others) :
    groups.map (fun codes => fss.flatten.filter (·.code ∈ codes)) = fss := by
  induction h with
  | nil => rfl
  | @cons codes fs groups fss hfs hfss ih =>
    obtain ⟨hcodes, hgroups⟩ := List.pairwise_cons.mp hgroups
    have hown : fs.filter (·.code ∈ codes) = fs :=
      List.filter_eq_self.mpr fun f hf => decide_eq_true (hfs f hf)
    have hrest : fss.flatten.filter (·.code ∈ codes) = [] := by
      refine List.filter_eq_nil_iff.mpr fun f hf => ?_
      obtain ⟨other, hother, hf⟩ := exists_group hfss f hf
      exact fun hc => hcodes other hother _ (of_decide_eq_true hc) hf
    have hothers : ∀ other ∈ groups, fs.filter (·.code ∈ other) = [] := by
      intro other hother
      refine List.filter_eq_nil_iff.mpr fun f hf => ?_
      exact fun hc => hcodes other hother _ (hfs f hf) (of_decide_eq_true hc)
    rw [List.map_cons, List.flatten_cons, List.filter_append, hown, hrest, List.append_nil]
    refine congrArg (fs :: ·) (Eq.trans (List.map_congr_left fun other hother => ?_) (ih hgroups))
    rw [List.filter_append, hothers other hother, List.nil_append]

theorem of_readAt (base : Option Path) (allowed : AllowList) (r : ReadRequest) :
    Code.groups.map (readAt base allowed r).of = parts base allowed r := by
  have h := filter_flatten (@code_of_mem_parts base allowed r) (by decide)
  rw [← items_readAt] at h
  exact h

/-- Each check's findings in a report are those of the check. -/
theorem of_codes (base : Option Path) (allowed : AllowList) (r : ReadRequest) :
    (readAt base allowed r).of [.unknownColumn] = unknownColumns base allowed r.fields ∧
    (readAt base allowed r).of [.emptyList] = emptyLists base r.fields ∧
    (readAt base allowed r).of [.unknownOrderColumn] =
      (r.order.map (unknownTerms base allowed)).getD [] ∧
    (readAt base allowed r).of [.nonIntegerLimit, .negativeLimit] =
      (r.limit.map (bound base "limit" .nonIntegerLimit .negativeLimit)).getD [] ∧
    (readAt base allowed r).of [.nonIntegerOffset, .negativeOffset] =
      (r.offset.map (bound base "offset" .nonIntegerOffset .negativeOffset)).getD [] := by
  have h := of_readAt base allowed r
  simpa only [Code.groups, parts, List.map_cons, List.map_nil, List.cons.injEq, and_true] using h

end Criteria.Validation
