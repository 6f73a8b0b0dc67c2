import Criteria.Postgres.Parameter
import Criteria.Proofs.Value.Basic

/-! Which values bind to which types. -/
namespace Criteria.Postgres

/-- The types that take a value. -/
inductive Binds : DataType → Value → Prop where
  | null {t : DataType} : Binds t .null
  | bool {t : DataType} {b : Bool} (h : t.takesBool = true) : Binds t (.bool b)
  | int2 {n : Int64} (low : -32768 ≤ n.toInt) (high : n.toInt < 32768) :
      Binds (.builtin .int2) (.int n)
  | int4 {n : Int64} (low : -2147483648 ≤ n.toInt) (high : n.toInt < 2147483648) :
      Binds (.builtin .int4) (.int n)
  | int8 {n : Int64} : Binds (.builtin .int8) (.int n)
  | intAsFloat8 {n : Int64} : Binds (.builtin .float8) (.int n)
  | float4 {x : Binary64} : Binds (.builtin .float4) (.float x)
  | float8 {x : Binary64} : Binds (.builtin .float8) (.float x)
  | text {t : DataType} {s : String} (h : t.takesText = true) : Binds t (.text s)
  | timestamptz {x : Timestamp} : Binds (.builtin .timestamptz) (.timestamp x)
  | timestamp {x : Timestamp} : Binds (.builtin .timestamp) (.timestamp x)
  | uuid {u : Uuid} : Binds (.builtin .uuid) (.uuid u)
  | json {es : List (String × Json)} : Binds (.builtin .json) (.object es)
  | jsonb {es : List (String × Json)} : Binds (.builtin .jsonb) (.object es)
  | list {t m : DataType} {vs : List Value} (member : t.member? = some m)
      (items : ∀ v ∈ vs, Binds m v) : Binds t (.list vs)

section

variable {t m : DataType} {v w : Value} {vs : List Value} {o : String} {e : Encoding}
  {err : BindError}

theorem isBuiltin_iff {among : List Builtin} :
    t.isBuiltin among = true ↔ ∃ b ∈ among, t = .builtin b := by
  cases t <;> simp [DataType.isBuiltin]

theorem takesTimestamp_iff :
    t.takesTimestamp = true ↔ t = .builtin .timestamptz ∨ t = .builtin .timestamp := by
  simp [DataType.takesTimestamp, isBuiltin_iff]

theorem takesUuid_iff : t.takesUuid = true ↔ t = .builtin .uuid := by
  simp [DataType.takesUuid, isBuiltin_iff]

theorem guarded_ok_iff {c : Bool} :
    (∃ x, (if c then .ok e else .error err : Except BindError Encoding) = .ok x) ↔ c = true := by
  cases c <;> simp

/-- An integer is encoded just if it fits. -/
theorem encodeInt_ok_iff {width : Nat} {n : Int} (half : Int)
    (h : half = (1 <<< (8 * width - 1) : Nat)) :
    (∃ e, encodeInt width n = .ok e) ↔ -half ≤ n ∧ n < half := by
  subst h
  rw [encodeInt]
  split <;> simp_all

theorem encode_int_ok_iff {n : Int64} : (∃ e, encode t (.int n) = .ok e) ↔ Binds t (.int n) := by
  have low := n.le_toInt
  have high := n.toInt_lt
  rw [encode.eq_def]
  dsimp only
  split
  · rw [encodeInt_ok_iff 32768 rfl]
    constructor
    · rintro ⟨low, high⟩
      exact .int2 low high
    · intro h
      cases h with
      | int2 low high => exact ⟨low, high⟩
  · rw [encodeInt_ok_iff 2147483648 rfl]
    constructor
    · rintro ⟨low, high⟩
      exact .int4 low high
    · intro h
      cases h with
      | int4 low high => exact ⟨low, high⟩
  · rw [encodeInt_ok_iff 9223372036854775808 rfl]
    exact iff_of_true ⟨low, high⟩ .int8
  · exact iff_of_true ⟨_, rfl⟩ .intAsFloat8
  · refine iff_of_false (by simp) fun h => ?_
    cases h <;> simp_all

theorem encode_float_ok_iff {x : Binary64} :
    (∃ e, encode t (.float x) = .ok e) ↔ Binds t (.float x) := by
  rw [encode.eq_def]
  dsimp only
  split
  · exact iff_of_true ⟨_, rfl⟩ .float4
  · exact iff_of_true ⟨_, rfl⟩ .float8
  · refine iff_of_false (by simp) fun h => ?_
    cases h <;> simp_all

theorem encode_object_ok_iff {es : List (String × Json)} :
    (∃ e, encode t (.object es) = .ok e) ↔ Binds t (.object es) := by
  rw [encode.eq_def]
  dsimp only
  split
  · exact iff_of_true ⟨_, rfl⟩ .json
  · exact iff_of_true ⟨_, rfl⟩ .jsonb
  · refine iff_of_false (by simp) fun h => ?_
    cases h <;> simp_all

theorem encode_timestamp_ok_iff {x : Timestamp} :
    (∃ e, encode t (.timestamp x) = .ok e) ↔ Binds t (.timestamp x) := by
  rw [encode, guarded_ok_iff, takesTimestamp_iff]
  constructor
  · rintro (rfl | rfl)
    · exact .timestamptz
    · exact .timestamp
  · intro h
    cases h with
    | timestamptz => exact .inl rfl
    | timestamp => exact .inr rfl

theorem encode_uuid_ok_iff {u : Uuid} : (∃ e, encode t (.uuid u) = .ok e) ↔ Binds t (.uuid u) := by
  rw [encode, guarded_ok_iff, takesUuid_iff]
  constructor
  · rintro rfl
    exact .uuid
  · intro h
    cases h with
    | uuid => rfl

theorem encodeItems_ok_iff :
    (∃ es, encodeItems m vs = .ok es) ↔ ∀ v ∈ vs, ∃ e, encode m v = .ok e := by
  induction vs with
  | nil => simp [encodeItems]
  | cons v vs ih =>
    rw [List.forall_mem_cons, ← ih, encodeItems]
    cases encode m v with
    | error err => simp
    | ok e => cases encodeItems m vs <;> simp [Except.map]

theorem encode_list_ok_iff : (∃ e, encode t (.list vs) = .ok e) ↔
    ∃ m, t.member? = some m ∧ ∀ v ∈ vs, ∃ e, encode m v = .ok e := by
  rw [encode]
  cases t.member? with
  | none => simp
  | some m =>
    simp only [Option.some.injEq, exists_eq_left', ← encodeItems_ok_iff]
    cases encodeItems m vs <;> simp [Except.map]

theorem encode_ok_iff_binds (v : Value) (t : DataType) :
    (∃ e, encode t v = .ok e) ↔ Binds t v := by
  induction v using Value.induction generalizing t with
  | null => exact iff_of_true ⟨none, rfl⟩ .null
  | bool b =>
    rw [encode, guarded_ok_iff]
    refine ⟨.bool, fun h => ?_⟩
    cases h with
    | bool h => exact h
  | int n => exact encode_int_ok_iff
  | float x => exact encode_float_ok_iff
  | text s =>
    rw [encode, guarded_ok_iff]
    refine ⟨.text, fun h => ?_⟩
    cases h with
    | text h => exact h
  | timestamp x => exact encode_timestamp_ok_iff
  | uuid u => exact encode_uuid_ok_iff
  | object es => exact encode_object_ok_iff
  | comparison o v ih => exact iff_of_false (by simp [encode]) (fun h => nomatch h)
  | list vs ih =>
    rw [encode_list_ok_iff]
    constructor
    · rintro ⟨m, hm, hvs⟩
      exact .list hm fun v hv => (ih v hv m).mp (hvs v hv)
    · intro h
      cases h with
      | list hm hvs => exact ⟨_, hm, fun v hv => (ih v hv _).mpr (hvs v hv)⟩

theorem encodeInt_ne_ok_none {width : Nat} {n : Int} : encodeInt width n ≠ .ok none := by
  rw [encodeInt]
  split <;> simp

/-- Only null is encoded without bytes. -/
theorem encode_eq_ok_none_iff : encode t v = .ok none ↔ v = .null := by
  cases v with
  | null => exact iff_of_true rfl rfl
  | int n =>
    refine iff_of_false ?_ (by simp)
    rw [encode.eq_def]
    dsimp only
    split <;> simp [encodeInt_ne_ok_none]
  | list vs =>
    refine iff_of_false ?_ (by simp)
    rw [encode]
    split
    · cases encodeItems _ vs <;> simp [Except.map]
    · simp
  | comparison o v => simp [encode]
  | _ =>
    refine iff_of_false ?_ (by simp)
    rw [encode.eq_def]
    dsimp only
    split <;> simp

/-- Lists cannot hide a comparison. -/
theorem Binds.not_holds_comparison (h : Binds t v) : ¬v.Holds (.comparison o w) := by
  induction h with
  | list _ _ ih =>
    intro hw
    cases hw with
    | item hv hw => exact ih _ hv hw
  | _ =>
    intro hw
    cases hw

theorem encode_eq_error_of_holds_comparison (h : v.Holds (.comparison o w)) :
    ∃ err, encode t v = .error err := by
  cases he : encode t v with
  | error err => exact ⟨err, rfl⟩
  | ok e => exact (((encode_ok_iff_binds v t).mp ⟨e, he⟩).not_holds_comparison h).elim

end

section

variable (stray : DataType → List Value → Except BindError Encoding)

/-- The encoder of arrays, which asks the type for the type of the members. What becomes of a type
that has none is open. -/
def encodeArray (t : DataType) (vs : List Value)
    (items : DataType → Except BindError (List Encoding)) : Except BindError Encoding :=
  match t.member? with
  | some m => (items m).map fun members => some (arrayBytes t m members)
  | none => stray t vs

mutual

/-- The encoding of a value that leaves its lists to the encoder of arrays. -/
def encodeVia (t : DataType) : Value → Except BindError Encoding
  | .list vs =>
    if t.member?.isSome then encodeArray stray t vs fun m => encodeItemsVia m vs
    else .error (.mismatch .list t)
  | v => encode t v

def encodeItemsVia (m : DataType) : List Value → Except BindError (List Encoding)
  | [] => .ok []
  | v :: vs =>
    match encodeVia m v with
    | .ok e => (encodeItemsVia m vs).map (e :: ·)
    | .error err => .error err

end

variable {stray}

theorem encodeItemsVia_eq {vs : List Value} (h : ∀ v ∈ vs, ∀ t, encodeVia stray t v = encode t v)
    (m : DataType) : encodeItemsVia stray m vs = encodeItems m vs := by
  induction vs with
  | nil => rfl
  | cons v vs ih =>
    obtain ⟨hv, hvs⟩ := List.forall_mem_cons.mp h
    rw [encodeItemsVia, hv, ih hvs]
    rfl

/-- The encoder of arrays never meets a type that is no array. -/
theorem encodeVia_eq (v : Value) (t : DataType) : encodeVia stray t v = encode t v := by
  induction v using Value.induction generalizing t with
  | list vs ih =>
    rw [encodeVia, encode, encodeArray]
    cases t.member? with
    | none => rfl
    | some m =>
      dsimp only [Option.isSome_some]
      rw [if_pos rfl, encodeItemsVia_eq ih]
  | _ => rfl

end

/-- A type takes its own values and no others. -/
structure TypeChecked (t : DataType) (v : Value) : Prop where
  ok_iff : (∃ e, encode t v = .ok e) ↔ Binds t v
  null_iff : encode t v = .ok none ↔ v = .null
  comparison : ∀ o w, v.Holds (.comparison o w) → ∃ err, encode t v = .error err
  /-- Whatever the encoder of arrays makes of a type that is no array does not show. -/
  arrays : ∀ stray, encodeVia stray t v = encode t v

theorem encode_typeChecked (t : DataType) (v : Value) : TypeChecked t v := by
  constructor
  · exact encode_ok_iff_binds v t
  · exact encode_eq_ok_none_iff
  · intro o w h
    exact encode_eq_error_of_holds_comparison h
  · intro stray
    exact encodeVia_eq v t

end Criteria.Postgres
