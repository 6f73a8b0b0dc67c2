import Criteria.Proofs.Compilation.Congruence
import Criteria.Proofs.Validation.Congruence

/-! Equality passes from requests and allow-lists to all that is made of them. -/
namespace Criteria

open Compilation (AgreeOnLog)

/-- What equal requests have in common if one is restricted to `a` and the other to `b`. -/
structure Congruence (a b : AllowList) : Prop where
  read : ∀ r s : ReadRequest, (r == s) = true →
    AgreeOnLog (Compilation.read (some r) a) (Compilation.read (some s) b) ∧
    AgreeOnLog (Compilation.select (some r) a) (Compilation.select (some s) b) ∧
    AgreeOnLog (Compilation.delete (some r) a) (Compilation.delete (some s) b) ∧
    Validation.read a r = Validation.read b s
  insert : ∀ r s : InsertRequest, (r == s) = true →
    AgreeOnLog (Compilation.insert (some r) a) (Compilation.insert (some s) b) ∧
    Validation.insert a r = Validation.insert b s
  update : ∀ r s : UpdateRequest, (r == s) = true →
    AgreeOnLog (Compilation.update (some r) a) (Compilation.update (some s) b) ∧
    Validation.update a r = Validation.update b s
  kind : ∀ v w : Value, (v == w) = true → v.kind = w.kind
  shape : ∀ vs ws : List Value, (vs == ws) = true → Shape.ofList? vs = Shape.ofList? ws

/-- What has the same data is equal, and so are sets of the same names. -/
structure Equalities : Prop where
  read : ∀ r s : ReadRequest, r.Related Value.SameData s → (r == s) = true
  insert : ∀ r s : InsertRequest, r.Related Value.SameData s → (r == s) = true
  update : ∀ r s : UpdateRequest, r.Related Value.SameData s → (r == s) = true
  names : ∀ names names' : List String, (∀ n, n ∈ names ↔ n ∈ names') →
    (AllowList.ofList names == AllowList.ofList names') = true

variable {a b : AllowList}

theorem agreeOnLog_read {r s : ReadRequest} (hab : (a == b) = true) (h : (r == s) = true) :
    AgreeOnLog (Compilation.read (some r) a) (Compilation.read (some s) b) := by
  rw [Compilation.read_eq, Compilation.read_eq]
  exact Compilation.agreeOnLog_perform
    (Compilation.readSteps_congr hab (.some (ReadRequest.beq_iff.mp h)))

theorem agreeOnLog_insert {r s : InsertRequest} (hab : (a == b) = true) (h : (r == s) = true) :
    AgreeOnLog (Compilation.insert (some r) a) (Compilation.insert (some s) b) := by
  rw [Compilation.insert_eq, Compilation.insert_eq]
  exact Compilation.agreeOnLog_perform
    (Compilation.insertSteps_congr hab (InsertRequest.beq_iff.mp h))

theorem agreeOnLog_update {r s : UpdateRequest} (hab : (a == b) = true) (h : (r == s) = true) :
    AgreeOnLog (Compilation.update (some r) a) (Compilation.update (some s) b) := by
  rw [Compilation.update_eq, Compilation.update_eq]
  exact Compilation.agreeOnLog_perform
    (Compilation.updateSteps_congr hab (UpdateRequest.beq_iff.mp h))

theorem equalities : Equalities := by
  have hvalues : ∀ v w : Value, v.SameData w → (v == w) = true := fun _ _ => Value.SameData.beq
  constructor
  · intro r s h
    exact ReadRequest.beq_iff.mpr (h.imp hvalues)
  · intro r s h
    exact InsertRequest.beq_iff.mpr (h.imp hvalues)
  · intro r s h
    exact UpdateRequest.beq_iff.mpr (h.imp hvalues)
  · intro names names' h
    refine AllowList.beq_iff.mpr fun n => ?_
    rw [AllowList.mem_ofList_iff, AllowList.mem_ofList_iff, h]

theorem requests_congruent {a b : AllowList} (hab : (a == b) = true) :
    Congruence a b ∧ Equalities := by
  refine ⟨?_, equalities⟩
  constructor
  · intro r s h
    have hread := agreeOnLog_read hab h
    exact ⟨hread, hread, hread, Validation.readAt_congr hab (ReadRequest.beq_iff.mp h)⟩
  · intro r s h
    exact ⟨agreeOnLog_insert hab h, Validation.insert_congr hab (InsertRequest.beq_iff.mp h)⟩
  · intro r s h
    exact ⟨agreeOnLog_update hab h, Validation.update_congr hab (UpdateRequest.beq_iff.mp h)⟩
  · intro v w
    exact Value.kind_eq_of_beq
  · intro vs ws
    exact Shape.ofList?_eq_of_beq

/-- A request whose values can be spelled in two ways. -/
def sampleRequest (v : Value) (negative : Bool) : ReadRequest :=
  { fields := .ofList [("id", v), ("size", .float (.ofMagnitude negative 0))]
    order := some (.column "id")
    limit := some (.float (.ofMagnitude negative 0)) }

theorem requests_congruent_sampleRequest :
    let a := AllowList.ofList ["id", "size"]
    let b := AllowList.ofList ["size", "id", "size"]
    let r := sampleRequest Value.sampleSpelling false
    let s := sampleRequest Value.sampleRespelling true
    (a == b) = true ∧ r.Related Value.SameData s ∧ (r == s) = true ∧
      AgreeOnLog (Compilation.read (some r) a) (Compilation.read (some s) b) ∧
      Validation.read a r = Validation.read b s := by
  intro a b r s
  have hab : (a == b) = true := by decide
  have hspelling : Value.sampleSpelling.SameData Value.sampleRespelling := by
    refine ⟨Value.respelled_sampleSpelling, Value.wellFormed_sampleSpelling, ?_⟩
    exact (Value.beq_self_iff Value.wellFormed_sampleSpelling).mp (by decide)
  have hzero : (Value.float (.ofMagnitude false 0)).SameData (.float (.ofMagnitude true 0)) :=
    ⟨.zero (by decide) (by decide), .float _, (Value.beq_self_iff (.float _)).mp (by decide)⟩
  have hrelated : r.Related Value.SameData s :=
    ⟨.cons ⟨rfl, hspelling⟩ (.cons ⟨rfl, hzero⟩ .nil), rfl, .some hzero, .none⟩
  obtain ⟨hcongruence, hequal⟩ := requests_congruent hab
  have hrs : (r == s) = true := hequal.read r s hrelated
  obtain ⟨hread, -, -, hreport⟩ := hcongruence.read r s hrs
  exact ⟨hab, hrelated, hrs, hread, hreport⟩

end Criteria
