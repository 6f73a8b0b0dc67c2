import Criteria.Proofs.Compilation.Calls
import Criteria.Proofs.Validation.Bound
import Criteria.Proofs.Validation.Findings
import Criteria.Proofs.Validation.Parts

/-! A report finds just what a compilation skips or hands on unchecked. -/
namespace Criteria

theorem ColumnMap.eq_of_mem (m : ColumnMap) {e f : String × Value} (he : e ∈ m.entries)
    (hf : f ∈ m.entries) (h : e.1 = f.1) : e = f :=
  List.inj_on_of_nodup_map m.nodup he hf h

namespace Validation

open Compilation (onLog)

variable {allowed : AllowList} {r : ReadRequest} {report : Report} {calls : List Call}

/-- A report finds at most one fault with a limit or an offset, given the calls that hand it on. -/
structure BoundExact (report : Report) (calls : List Call) (call : Value → Call) (key : String)
    (nonInteger negative : Code) : Prop where
  faulty_iff : (∃ v, call v ∈ calls ∧ ∀ n : ℕ, ¬v.Denotes n) ↔
    (report.of [nonInteger, negative]).length = 1
  faultless_iff : (¬∃ v, call v ∈ calls ∧ ∀ n : ℕ, ¬v.Denotes n) ↔
    report.of [nonInteger, negative] = []
  nonInteger_iff : (∃ v, call v ∈ calls ∧ ∀ n : ℤ, ¬v.Denotes n) ↔
    ∃ f ∈ report.of [nonInteger, negative], f.code = nonInteger
  negative_iff : (∃ v, call v ∈ calls ∧ ∃ n < 0, v.Denotes n) ↔
    ∃ f ∈ report.of [nonInteger, negative], f.code = negative
  field_eq : ∀ f ∈ report.of [nonInteger, negative], f.field = key

/-- The report on a request agrees with the calls that it compiles to. -/
structure Exact (allowed : AllowList) (r : ReadRequest) (report : Report) (calls : List Call) :
    Prop where
  silent_iff : ∀ column ∈ r.fields.columns,
    (¬∃ c ∈ calls, c.isWhere = true ∧ c.column? = some column) ↔
      ∃ f ∈ report.of [.unknownColumn, .emptyList], f.field = column
  unknownColumns : (report.of [.unknownColumn]).map Finding.field =
    r.fields.columns.filter fun column => !allowed.contains column
  emptyLists : (report.of [.emptyList]).map Finding.field =
    (r.fields.entries.filter fun e => e.2 = .list []).map Prod.fst
  unknownTerms : report.of [.unknownOrderColumn] =
    ((calls.filterMap Call.term?).filter fun t => !allowed.contains t.column).map fun t =>
      ⟨"orderBy", .unknownOrderColumn, "unknown order column '" ++ t.column ++ "'"⟩
  limit : BoundExact report calls .limit "limit" .nonIntegerLimit .negativeLimit
  offset : BoundExact report calls .offset "offset" .nonIntegerOffset .negativeOffset
  items_eq : report.items = Code.groups.flatMap report.of

theorem boundExact {o : Option Value} {call : Value → Call} {key : String}
    {nonInteger negative : Code} (hcodes : nonInteger ≠ negative)
    (hcalls : ∀ v, call v ∈ calls ↔ o = some v)
    (hof : report.of [nonInteger, negative] =
      (o.map (bound none key nonInteger negative)).getD []) :
    BoundExact report calls call key nonInteger negative := by
  have hexists : ∀ P : Value → Prop, (∃ v, call v ∈ calls ∧ P v) ↔ ∃ v, o = some v ∧ P v := by
    intro P
    simp only [hcalls]
  cases o with
  | none => constructor <;> simp [hexists, hof]
  | some v =>
    rw [Option.map_some, Option.getD_some] at hof
    by_cases h : ∃ n : ℤ, v.Denotes n
    · obtain ⟨n, hn⟩ := h
      have hvalue : ∀ m : ℤ, v.Denotes m ↔ m = n :=
        fun m => ⟨fun hm => hm.unique hn, fun hm => hm ▸ hn⟩
      rw [bound_of_denotes hn] at hof
      by_cases hneg : n < 0
      · rw [if_pos hneg] at hof
        have hnat : ∀ m : ℕ, (m : ℤ) ≠ n := fun m => by omega
        constructor <;> simp [hexists, hof, hvalue, hnat, hneg, hcodes.symm]
      · rw [if_neg hneg] at hof
        obtain ⟨m, rfl⟩ := Int.eq_ofNat_of_zero_le (not_lt.mp hneg)
        constructor <;> simp [hexists, hof, hvalue]
    · have h : ∀ n : ℤ, ¬v.Denotes n := not_exists.mp h
      rw [bound_of_not_denotes h] at hof
      constructor <;> simp [hexists, hof, h, hcodes]

theorem exists_of_pair_iff {c d : Code} {field : String} :
    (∃ f ∈ report.of [c, d], f.field = field) ↔
      field ∈ (report.of [c]).map Finding.field ∨ field ∈ (report.of [d]).map Finding.field := by
  simp only [Report.of, List.mem_map, List.mem_filter, decide_eq_true_eq, List.mem_cons,
    List.not_mem_nil, or_false, and_or_left, or_and_right, exists_or]

/-- No call tells of a column just if it is not allowed or its value is an empty list. -/
theorem silent_field_iff {e : String × Value} (he : e ∈ r.fields.entries) :
    (¬∃ c ∈ (onLog fun _ _ => Compilation.read (some r) allowed).calls,
      c.isWhere = true ∧ c.column? = some e.1) ↔
    allowed.contains e.1 = false ∨ e.2 = .list [] := by
  rw [Compilation.exists_where_iff]
  constructor
  · intro h
    by_contra hor
    obtain ⟨hallowed, hv⟩ := not_or.mp hor
    exact h ⟨e, he, rfl, Bool.of_not_eq_false hallowed, hv⟩
  · rintro h ⟨f, hf, hkey, hallowed, hv⟩
    obtain rfl := r.fields.eq_of_mem hf he hkey
    rcases h with h | h
    · rw [hallowed] at h
      cases h
    · exact hv h

theorem exists_finding_iff {e : String × Value} (he : e ∈ r.fields.entries) :
    (∃ f ∈ (Validation.read allowed r).of [.unknownColumn, .emptyList], f.field = e.1) ↔
      allowed.contains e.1 = false ∨ e.2 = .list [] := by
  obtain ⟨hcolumns, hlists, -⟩ := of_codes none allowed r
  rw [exists_of_pair_iff, Validation.read, hcolumns, hlists, field_unknownColumns,
    field_emptyLists]
  refine or_congr ?_ ⟨fun hmem => ?_, fun hv => ?_⟩
  · have hcolumn : e.1 ∈ r.fields.columns := List.mem_map_of_mem he
    rw [List.mem_filter, Bool.not_eq_true', and_iff_right hcolumn]
  · obtain ⟨f, hf, hkey⟩ := List.mem_map.mp hmem
    obtain ⟨hf, hv⟩ := List.mem_filter.mp hf
    obtain rfl := r.fields.eq_of_mem hf he hkey
    exact of_decide_eq_true hv
  · exact List.mem_map_of_mem (List.mem_filter.mpr ⟨he, decide_eq_true hv⟩)

/-- The columns that a compilation skips, the unknown columns that it orders by and the bounds that
are no natural numbers are found, and nothing else is. -/
theorem read_exact (allowed : AllowList) (r : ReadRequest) :
    Exact allowed r (Validation.read allowed r)
      (onLog fun _ _ => Compilation.read (some r) allowed).calls := by
  obtain ⟨hcolumns, hlists, hterms, hlimit, hoffset⟩ := of_codes none allowed r
  constructor
  · intro column hcolumn
    obtain ⟨e, he, rfl⟩ := List.mem_map.mp hcolumn
    rw [silent_field_iff he, exists_finding_iff he]
  · rw [Validation.read, hcolumns]
    exact field_unknownColumns
  · rw [Validation.read, hlists]
    exact field_emptyLists
  · rw [Validation.read, hterms, Compilation.terms_calls_read]
    cases r.order with
    | none => rfl
    | some order => simp [Validation.unknownTerms]
  · exact boundExact (by decide) (fun _ => Compilation.limit_mem_calls_read) hlimit
  · exact boundExact (by decide) (fun _ => Compilation.offset_mem_calls_read) hoffset
  · rw [List.flatMap_def, Validation.read, of_readAt, items_readAt]

end Validation

end Criteria
