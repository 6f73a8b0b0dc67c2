/-! Key-value lists in insertion order. -/
namespace Criteria

/-- Keys with their values, in order. Of a repeated key only the first occurrence is seen. -/
abbrev Entries (α : Type) := List (String × α)

namespace Entries

variable {α : Type} {key k : String} {value v : α} {es : Entries α}

def keys (es : Entries α) : List String := es.map Prod.fst

def get? (key : String) : Entries α → Option α
  | [] => none
  | (k, v) :: rest => if k = key then some v else get? key rest

/-- A present key keeps its position and takes the new value; a new key goes to the end. -/
def insert (key : String) (value : α) : Entries α → Entries α
  | [] => [(key, value)]
  | (k, v) :: rest => if k = key then (k, value) :: rest else (k, v) :: insert key value rest

def erase (key : String) : Entries α → Entries α
  | [] => []
  | (k, v) :: rest => if k = key then rest else (k, v) :: erase key rest

/-- The value of a key, and the entries without it. -/
def remove (key : String) : Entries α → Option α × Entries α
  | [] => (none, [])
  | (k, v) :: rest =>
    if k = key then (some v, rest)
    else
      let r := remove key rest
      (r.1, (k, v) :: r.2)

@[simp] theorem keys_nil : keys ([] : Entries α) = [] := rfl

@[simp] theorem keys_cons : keys ((k, v) :: es) = k :: keys es := rfl

theorem keys_insert : keys (insert key value es) =
    if key ∈ keys es then keys es else keys es ++ [key] := by
  induction es with
  | nil => simp [insert]
  | cons e es ih =>
    obtain ⟨k, v⟩ := e
    by_cases h : k = key
    · simp [insert, h]
    · simp only [insert, h, if_false, keys_cons, ih, List.mem_cons, Ne.symm h, false_or]
      split <;> simp

theorem keys_erase : keys (erase key es) = (keys es).erase key := by
  induction es with
  | nil => rfl
  | cons e es ih =>
    obtain ⟨k, v⟩ := e
    by_cases h : k = key <;> simp [erase, h, ih]

theorem erase_of_not_mem (h : key ∉ keys es) : erase key es = es := by
  induction es with
  | nil => rfl
  | cons e es ih =>
    obtain ⟨k, v⟩ := e
    rw [keys_cons, List.mem_cons, not_or] at h
    rw [erase, if_neg (Ne.symm h.1), ih h.2]

theorem erase_eq_filter (h : (keys es).Nodup) : erase key es = es.filter fun e => e.1 ≠ key := by
  induction es with
  | nil => rfl
  | cons e es ih =>
    obtain ⟨k, v⟩ := e
    obtain ⟨hk, hes⟩ := List.nodup_cons.mp h
    by_cases he : k = key
    · subst k
      rw [erase, if_pos rfl, List.filter_cons_of_neg (by simp), ← ih hes, erase_of_not_mem hk]
    · simp [erase, he, ih hes]

theorem remove_eq : remove key es = (get? key es, erase key es) := by
  induction es with
  | nil => rfl
  | cons e es ih =>
    obtain ⟨k, v⟩ := e
    by_cases h : k = key <;> simp [remove, get?, erase, h, ih]

theorem get?_insert_self : get? key (insert key value es) = some value := by
  induction es with
  | nil => simp [insert, get?]
  | cons e es ih =>
    obtain ⟨k, v⟩ := e
    by_cases h : k = key <;> simp [insert, get?, h, ih]

theorem get?_insert_of_ne (hk : k ≠ key) : get? k (insert key value es) = get? k es := by
  induction es with
  | nil => simp [insert, get?, hk.symm]
  | cons e es ih =>
    obtain ⟨l, v⟩ := e
    by_cases h : l = key
    · subst h
      simp [insert, get?, hk.symm]
    · simp [insert, get?, h, ih]

theorem get?_eq_none_iff : get? key es = none ↔ key ∉ keys es := by
  induction es with
  | nil => simp [get?]
  | cons e es ih =>
    obtain ⟨k, v⟩ := e
    by_cases h : k = key
    · simp [get?, h]
    · simp [get?, h, ih, Ne.symm h]

theorem mem_keys_of_mem (h : (k, v) ∈ es) : k ∈ keys es := List.mem_map_of_mem h

theorem get?_eq_some_iff_mem (h : (keys es).Nodup) : get? key es = some v ↔ (key, v) ∈ es := by
  induction es with
  | nil => simp [get?]
  | cons e es ih =>
    obtain ⟨k, w⟩ := e
    obtain ⟨hk, hes⟩ := List.nodup_cons.mp h
    by_cases he : k = key
    · subst k
      have hv : (key, v) ∉ es := fun hv => hk (mem_keys_of_mem hv)
      simp [get?, hv, eq_comm]
    · simp [get?, he, Ne.symm he, ih hes]

theorem mem_of_get? (h : get? key es = some v) : (key, v) ∈ es := by
  induction es with
  | nil => cases h
  | cons e es ih =>
    obtain ⟨k, w⟩ := e
    rw [get?] at h
    split at h
    · rename_i he
      cases he
      cases h
      exact List.mem_cons_self
    · exact List.mem_cons_of_mem _ (ih h)

theorem get?_perm {fs : Entries α} (h : es.Perm fs) (hn : (keys es).Nodup) :
    get? key es = get? key fs := by
  have hn' : (keys fs).Nodup := (h.map Prod.fst).nodup_iff.mp hn
  refine Option.ext fun v => ?_
  rw [get?_eq_some_iff_mem hn, get?_eq_some_iff_mem hn', h.mem_iff]

theorem get?_erase_of_ne (hk : k ≠ key) : get? k (erase key es) = get? k es := by
  induction es with
  | nil => rfl
  | cons e es ih =>
    obtain ⟨l, v⟩ := e
    by_cases h : l = key
    · subst h
      simp [erase, get?, hk.symm]
    · simp [erase, get?, h, ih]

theorem get?_append {fs : Entries α} :
    get? key (es ++ fs) = (get? key es).or (get? key fs) := by
  induction es with
  | nil => rfl
  | cons e es ih =>
    obtain ⟨k, v⟩ := e
    by_cases h : k = key <;> simp [get?, h, ih]

theorem get?_append_singleton_self (h : key ∉ keys es) :
    get? key (es ++ [(key, value)]) = some value := by
  rw [get?_append, get?_eq_none_iff.mpr h]
  simp [get?]

theorem get?_append_singleton_of_ne (hk : k ≠ key) :
    get? key (es ++ [(k, v)]) = get? key es := by
  simp [get?_append, get?, hk]

theorem not_mem_keys_of_nodup {fs : Entries α} (h : (keys (es ++ (key, value) :: fs)).Nodup) :
    key ∉ keys es := by
  rw [keys, List.map_append, List.map_cons] at h
  intro hk
  exact (List.nodup_append.mp h).2.2 key hk key List.mem_cons_self rfl

theorem insert_of_not_mem (h : key ∉ keys es) : insert key value es = es ++ [(key, value)] := by
  induction es with
  | nil => rfl
  | cons e es ih =>
    obtain ⟨k, v⟩ := e
    rw [keys_cons, List.mem_cons, not_or] at h
    simp [insert, Ne.symm h.1, ih h.2]

/-- An insertion is not seen where its key is left out. -/
theorem filter_insert {p : String × α → Bool} (h : ∀ v, p (key, v) = false) :
    (insert key value es).filter p = es.filter p := by
  induction es with
  | nil => simp [insert, h]
  | cons e es ih =>
    obtain ⟨k, v⟩ := e
    by_cases hk : k = key
    · subst k
      simp [insert, h]
    · simp only [insert, hk, if_false, List.filter_cons, ih]

theorem nodup_insert (h : (keys es).Nodup) : (keys (insert key value es)).Nodup := by
  rw [keys_insert]
  split
  · exact h
  · next hk => exact List.nodup_append.2 ⟨h, by simp, by rintro a ha b hb rfl; simp_all⟩

theorem get?_erase_self (h : (keys es).Nodup) : get? key (erase key es) = none := by
  rw [get?_eq_none_iff, keys_erase]
  exact h.not_mem_erase

theorem nodup_erase (h : (keys es).Nodup) : (keys (erase key es)).Nodup := by
  rw [keys_erase]
  exact h.erase key

theorem nodup_remove (h : (keys es).Nodup) : (keys (remove key es).2).Nodup := by
  rw [remove_eq]
  exact nodup_erase h

end Entries

end Criteria
