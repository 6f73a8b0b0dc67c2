import Criteria.Proofs.Postgres.Binding

/-! The types that are accepted are those that some value with content binds to. -/
namespace Criteria

/-- Values with a leaf that is not null, below any lists. -/
inductive Value.Loaded : Value → Prop where
  | leaf {v : Value} (null : v.isNull = false) (list : v.isList = false) : Loaded v
  | item {vs : List Value} {v : Value} (hv : v ∈ vs) (h : Loaded v) : Loaded (.list vs)

/-- Null, and lists of nothing but such values. -/
inductive Value.Hollow : Value → Prop where
  | null : Hollow .null
  | list {vs : List Value} (items : ∀ v ∈ vs, Hollow v) : Hollow (.list vs)

theorem Value.hollow_iff_not_loaded (v : Value) : v.Hollow ↔ ¬v.Loaded := by
  induction v using Value.induction with
  | null =>
    refine iff_of_true .null fun h => ?_
    cases h with
    | leaf null => cases null
  | list vs ih =>
    constructor
    · intro h hv
      cases h with
      | list items =>
        cases hv with
        | leaf _ list => cases list
        | item hv h => exact (ih _ hv).mp (items _ hv) h
    · intro h
      refine .list fun v hv => (ih v hv).mpr fun hl => ?_
      exact h (.item hv hl)
  | _ => exact iff_of_false (fun h => nomatch h) fun h => h (.leaf rfl rfl)

namespace Postgres

namespace DataType

/-- A type, the members of an array type, their members and so on. -/
inductive Reaches : DataType → DataType → Prop where
  | self (t : DataType) : Reaches t t
  | member {t m u : DataType} (h : t.member? = some m) (hu : Reaches m u) : Reaches t u

/-- No array type within `t` takes scalars, as one would that bears the name of a type of text of
some extension. -/
def Regular (t : DataType) : Prop :=
  ∀ u m, t.Reaches u → u.member? = some m → u.takesScalar = false

variable {t m : DataType} {b : Builtin}

theorem regular_of_scalar (h : t.member? = none) : t.Regular := by
  intro u n hu hn
  cases hu with
  | self => simp_all
  | member hm _ => simp_all

theorem regular_of_array (h : t.member? = some m) (ht : t.takesScalar = false) (hm : m.Regular) :
    t.Regular := by
  intro u n hu hn
  cases hu with
  | self => exact ht
  | member hm' hu =>
    obtain rfl := Option.some.inj (h.symm.trans hm')
    exact hm u n hu hn

theorem Regular.member (h : t.Regular) (hm : t.member? = some m) : m.Regular :=
  fun u n hu hn => h u n (.member hm hu) hn

/-- The built-in arrays have no arrays as members. -/
theorem member?_builtin (h : (builtin b).member? = some m) :
    ∃ c, b.form = .array c ∧ m = builtin c ∧ m.member? = none := by
  cases b <;> cases h <;> exact ⟨_, rfl, rfl, rfl⟩

theorem accepted_of_scalar (h : t.member? = none) : t.accepted = t.takesScalar := by
  cases t with
  | builtin b =>
    rw [accepted]
    split
    · next hform => simp [member?, hform] at h
    · rfl
  | custom name schema oid form =>
    cases form with
    | array m => cases h
    | _ => rfl

theorem accepted_of_array (h : t.member? = some m) : t.accepted = m.accepted := by
  cases t with
  | builtin b =>
    obtain ⟨c, hform, rfl, hnone⟩ := member?_builtin h
    rw [accepted_of_scalar hnone, accepted, hform]
  | custom name schema oid form =>
    cases form <;> cases h
    rfl

end DataType

variable {t m : DataType} {v : Value} {e : Encoding}

theorem takesInt_iff : t.takesInt = true ↔
    t = .builtin .int2 ∨ t = .builtin .int4 ∨ t = .builtin .int8 ∨ t = .builtin .float8 := by
  simp [DataType.takesInt, isBuiltin_iff]

theorem takesFloat_iff : t.takesFloat = true ↔ t = .builtin .float4 ∨ t = .builtin .float8 := by
  simp [DataType.takesFloat, isBuiltin_iff]

theorem takesObject_iff : t.takesObject = true ↔ t = .builtin .json ∨ t = .builtin .jsonb := by
  simp [DataType.takesObject, isBuiltin_iff]

theorem Binds.takesScalar (h : Binds t v) (null : v.isNull = false) (list : v.isList = false) :
    t.takesScalar = true := by
  cases h with
  | null => cases null
  | list => cases list
  | bool h => simp [DataType.takesScalar, h]
  | text h => simp [DataType.takesScalar, h]
  | _ => rfl

theorem exists_loaded_of_takesScalar (h : t.takesScalar = true) :
    ∃ v : Value, v.Loaded ∧ Binds t v := by
  simp only [DataType.takesScalar, Bool.or_eq_true] at h
  rcases h with (((((hbool | hint) | hfloat) | htext) | htime) | huuid) | hobject
  · exact ⟨.bool true, .leaf rfl rfl, .bool hbool⟩
  · refine ⟨.int 0, .leaf rfl rfl, ?_⟩
    rcases takesInt_iff.mp hint with rfl | rfl | rfl | rfl
    · exact .int2 (by decide) (by decide)
    · exact .int4 (by decide) (by decide)
    · exact .int8
    · exact .intAsFloat8
  · refine ⟨.float ⟨0⟩, .leaf rfl rfl, ?_⟩
    rcases takesFloat_iff.mp hfloat with rfl | rfl
    · exact .float4
    · exact .float8
  · exact ⟨.text "", .leaf rfl rfl, .text htext⟩
  · refine ⟨.timestamp ⟨0, 0, by decide, by decide, by decide⟩, .leaf rfl rfl, ?_⟩
    rcases takesTimestamp_iff.mp htime with rfl | rfl
    · exact .timestamptz
    · exact .timestamp
  · refine ⟨.uuid ⟨0⟩, .leaf rfl rfl, ?_⟩
    obtain rfl := takesUuid_iff.mp huuid
    exact .uuid
  · refine ⟨.object [], .leaf rfl rfl, ?_⟩
    rcases takesObject_iff.mp hobject with rfl | rfl
    · exact .json
    · exact .jsonb

theorem exists_loaded_of_member (hm : t.member? = some m) (h : ∃ v : Value, v.Loaded ∧ Binds m v) :
    ∃ v : Value, v.Loaded ∧ Binds t v := by
  obtain ⟨v, hv, hb⟩ := h
  refine ⟨.list [v], .item (List.mem_singleton_self v) hv, .list hm ?_⟩
  intro w hw
  rwa [List.mem_singleton.mp hw]

theorem exists_loaded_of_accepted (h : t.accepted = true) : ∃ v : Value, v.Loaded ∧ Binds t v := by
  fun_induction DataType.accepted t with
  | case1 b m hform =>
    have hm : (DataType.builtin b).member? = some (.builtin m) := by simp [DataType.member?, hform]
    exact exists_loaded_of_member hm (exists_loaded_of_takesScalar h)
  | case2 b _ => exact exists_loaded_of_takesScalar h
  | case3 name schema oid m ih => exact exists_loaded_of_member rfl (ih h)
  | case4 t _ _ => exact exists_loaded_of_takesScalar h

/-- The leaf of a value tells the innermost type of an array. -/
theorem Binds.accepted (h : Binds t v) (hv : v.Loaded) (ht : t.Regular) : t.accepted = true := by
  induction hv generalizing t with
  | leaf hnull hlist =>
    have hscalar := h.takesScalar hnull hlist
    cases hm : t.member? with
    | none => rwa [DataType.accepted_of_scalar hm]
    | some m =>
      have := ht t m (.self t) hm
      simp_all
  | item hv _ ih =>
    cases h with
    | list hm items =>
      rw [DataType.accepted_of_array hm]
      exact ih (items _ hv) (ht.member hm)

theorem bind_of_accepted (h : t.accepted = true) : bind t v = encode t v := if_pos h

theorem bind_ok_iff : bind t v = .ok e ↔ t.accepted = true ∧ encode t v = .ok e := by
  rw [bind]
  cases t.accepted <;> simp

/-- A type is accepted just if some value with content binds to it, so that checking the type first
refuses no such value. -/
structure AcceptsUnion (t : DataType) : Prop where
  accepted_iff : t.accepted = true ↔ ∃ v : Value, v.Loaded ∧ ∃ e, encode t v = .ok e
  accepted_of_loaded : ∀ v : Value, v.Loaded → (∃ e, encode t v = .ok e) → t.accepted = true
  bind_iff : ∀ v : Value, v.Loaded → ∀ e, bind t v = .ok e ↔ encode t v = .ok e
  refused_iff : ∀ v : Value, ((∃ e, encode t v = .ok e) ∧ ∃ err, bind t v = .error err) ↔
    v.Hollow ∧ t.accepted = false ∧ ∃ e, encode t v = .ok e

theorem accepted_isUnion (t : DataType) (ht : t.Regular) : AcceptsUnion t := by
  have hloaded : ∀ v : Value, v.Loaded → (∃ e, encode t v = .ok e) → t.accepted = true := by
    intro v hv he
    exact ((encode_ok_iff_binds v t).mp he).accepted hv ht
  constructor
  · constructor
    · intro h
      obtain ⟨v, hv, hb⟩ := exists_loaded_of_accepted h
      exact ⟨v, hv, (encode_ok_iff_binds v t).mpr hb⟩
    · rintro ⟨v, hv, he⟩
      exact hloaded v hv he
  · exact hloaded
  · intro v hv e
    rw [bind_ok_iff]
    exact and_iff_right_of_imp fun he => hloaded v hv ⟨e, he⟩
  · intro v
    constructor
    · rintro ⟨⟨e, he⟩, err, herr⟩
      have hnot : t.accepted = false := by
        cases ha : t.accepted with
        | false => rfl
        | true =>
          rw [bind_ok_iff.mpr ⟨ha, he⟩] at herr
          cases herr
      refine ⟨(v.hollow_iff_not_loaded).mpr fun hv => ?_, hnot, e, he⟩
      rw [hloaded v hv ⟨e, he⟩] at hnot
      cases hnot
    · rintro ⟨-, hnot, he⟩
      exact ⟨he, .notAccepted t, by rw [bind, hnot]; rfl⟩

/-- Rows of texts whose type an extension defines. -/
def citextMatrix : DataType :=
  .custom "matrix" "public" 90001
    (.array (.custom "_citext" "public" 90002 (.array (.custom "citext" "public" 90003 .simple))))

theorem accepted_isUnion_citextMatrix : citextMatrix.Regular ∧ AcceptsUnion citextMatrix := by
  have hregular : citextMatrix.Regular := by
    refine DataType.regular_of_array rfl rfl (DataType.regular_of_array rfl rfl ?_)
    exact DataType.regular_of_scalar rfl
  exact ⟨hregular, accepted_isUnion citextMatrix hregular⟩

/-- An array that bears the name of such a type takes a text, although its members take nothing. -/
example :
    let t : DataType := .custom "citext" "public" 90001 (.array (.builtin .bytea))
    t.accepted = false ∧ ∃ e, encode t (.text "a") = .ok e :=
  ⟨rfl, _, rfl⟩

end Postgres

end Criteria
