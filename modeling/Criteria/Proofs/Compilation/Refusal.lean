import Criteria.Proofs.Compilation.Steps

/-! What a refused call leaves of a compilation. -/
namespace Criteria

namespace Target

variable {σ ε : Type} {t : Target σ ε} {s : σ} {c : Call} {cs : List Call} {k : Nat} {e : ε}

/-- The state after the given calls, be they taken or refused. -/
def after (t : Target σ ε) (s : σ) (cs : List Call) : σ :=
  cs.foldl (fun s c => (t.receive s c).1) s

/-- The answer to the call with the given number, after all calls before it. -/
def answer? (t : Target σ ε) (s : σ) (cs : List Call) (k : Nat) : Option (Except ε Unit) :=
  cs[k]?.map fun c => (t.receive (t.after s (cs.take k)) c).2

def Accepts (t : Target σ ε) (s : σ) (cs : List Call) : Prop :=
  ∀ k < cs.length, t.answer? s cs k = some (.ok ())

/-- The call with the number `k` is the first that is refused. -/
def Refuses (t : Target σ ε) (s : σ) (cs : List Call) (k : Nat) (e : ε) : Prop :=
  (∀ i < k, t.answer? s cs i = some (.ok ())) ∧ t.answer? s cs k = some (.error e)

theorem answer?_cons_zero : t.answer? s (c :: cs) 0 = some (t.receive s c).2 := rfl

theorem answer?_cons_succ :
    t.answer? s (c :: cs) (k + 1) = t.answer? (t.receive s c).1 cs k := rfl

theorem accepts_cons_iff : t.Accepts s (c :: cs) ↔
    (t.receive s c).2 = .ok () ∧ t.Accepts (t.receive s c).1 cs := by
  constructor
  · intro h
    refine ⟨Option.some.inj (h 0 (by simp)), fun k hk => ?_⟩
    rw [← answer?_cons_succ]
    exact h (k + 1) (by simpa using hk)
  · rintro ⟨hc, hcs⟩ k hk
    cases k with
    | zero => rw [answer?_cons_zero, hc]
    | succ k =>
      rw [answer?_cons_succ]
      exact hcs k (by simpa using hk)

theorem not_refuses_nil : ¬ t.Refuses s [] k e := by
  rintro ⟨-, h⟩
  simp [answer?] at h

theorem refuses_cons_zero_iff : t.Refuses s (c :: cs) 0 e ↔ (t.receive s c).2 = .error e := by
  simp [Refuses, answer?_cons_zero]

theorem refuses_cons_succ_iff : t.Refuses s (c :: cs) (k + 1) e ↔
    (t.receive s c).2 = .ok () ∧ t.Refuses (t.receive s c).1 cs k e := by
  constructor
  · rintro ⟨hi, hk⟩
    refine ⟨Option.some.inj (hi 0 (by omega)), fun i hik => ?_, hk⟩
    exact hi (i + 1) (by omega)
  · rintro ⟨hc, hi, hk⟩
    refine ⟨fun i hik => ?_, hk⟩
    cases i with
    | zero => rw [answer?_cons_zero, hc]
    | succ i =>
      rw [answer?_cons_succ]
      exact hi i (by omega)

end Target

namespace Compilation

variable {σ ε : Type} {t : Target σ ε} {s : σ} {js : List Step} {k : Nat} {e : ε}

theorem perform_accepted (h : t.Accepts s (js.filterMap Step.call?)) :
    perform js t s = ⟨t.after s (js.filterMap Step.call?), js, .ok ()⟩ := by
  induction js generalizing s with
  | nil => rfl
  | cons j js ih =>
    cases j with
    | notice n =>
      rw [perform_notice, ih h]
      rfl
    | call c =>
      obtain ⟨hc, hcs⟩ := Target.accepts_cons_iff.mp h
      rw [perform_call_ok (Prod.ext rfl hc), ih hcs]
      rfl

/-- The run ends in the refused call. The steps after it are neither called nor noticed. -/
theorem perform_refused (h : t.Refuses s (js.filterMap Step.call?) k e) :
    ∃ before c rest, js = before ++ .call c :: rest ∧
      (before ++ [.call c]).filterMap Step.call? = (js.filterMap Step.call?).take (k + 1) ∧
      perform js t s =
        ⟨t.after s ((js.filterMap Step.call?).take (k + 1)), before ++ [.call c], .error e⟩ := by
  induction js generalizing s k with
  | nil => exact (Target.not_refuses_nil h).elim
  | cons j js ih =>
    cases j with
    | notice n =>
      obtain ⟨before, c, rest, rfl, hb, hr⟩ := ih h
      refine ⟨.notice n :: before, c, rest, rfl, hb, ?_⟩
      rw [perform_notice, hr]
      rfl
    | call c =>
      cases k with
      | zero =>
        have hc := Target.refuses_cons_zero_iff.mp h
        refine ⟨[], c, js, rfl, rfl, ?_⟩
        rw [perform_call_error (Prod.ext rfl hc)]
        rfl
      | succ k =>
        obtain ⟨hc, hcs⟩ := Target.refuses_cons_succ_iff.mp h
        obtain ⟨before, d, rest, rfl, hb, hr⟩ := ih hcs
        refine ⟨.call c :: before, d, rest, rfl, congrArg (c :: ·) hb, ?_⟩
        rw [perform_call_ok (Prod.ext rfl hc), hr]
        rfl

/-- A target that refuses the call `n` receives it, but no other one after it. -/
theorem perform_refusing {n m : Nat} (hm : m ≤ n) (taken : List Call) :
    (perform js (Target.refusing (some n)) ⟨m, taken⟩).state =
      ⟨min (n + 1) (m + (js.filterMap Step.call?).length),
        taken ++ (js.filterMap Step.call?).take (n - m)⟩ := by
  induction js generalizing m taken with
  | nil =>
    rw [perform_nil]
    have : min (n + 1) m = m := by omega
    simp [this]
  | cons j js ih =>
    cases j with
    | notice k =>
      rw [perform_notice]
      exact ih hm taken
    | call c =>
      have hcs : (Step.call c :: js).filterMap Step.call? = c :: js.filterMap Step.call? := rfl
      rw [hcs, List.length_cons]
      by_cases h : n = m
      · subst n
        have hc : (Target.refusing (some m)).receive ⟨m, taken⟩ c = (⟨m + 1, taken⟩, .error c) := by
          simp [Target.refusing]
        rw [perform_call_error hc]
        simp
      · have hc : (Target.refusing (some n)).receive ⟨m, taken⟩ c =
            (⟨m + 1, taken ++ [c]⟩, .ok ()) := by
          simp [Target.refusing, h]
        rw [perform_call_ok hc]
        dsimp only
        rw [ih (by omega)]
        have hn : n - m = n - (m + 1) + 1 := by omega
        rw [hn, List.take_succ_cons, List.append_assoc, List.singleton_append]
        congr 2
        omega

/-- On every target a compilation does as on the log, up to the first call that is refused. -/
structure FollowsLog (x : ∀ σ ε : Type, Compilation σ ε Unit) : Prop where
  ok_onLog : (onLog x).result = .ok ()
  state_onLog : (onLog x).state = (onLog x).calls
  accepted : ∀ {σ ε : Type} (t : Target σ ε) (s : σ), t.Accepts s (onLog x).calls →
    x σ ε t s = ⟨t.after s (onLog x).calls, (onLog x).journal, .ok ()⟩
  /-- The steps are those of the log up to the refused call, which is the last one. -/
  refused : ∀ {σ ε : Type} (t : Target σ ε) (s : σ) (k : Nat) (e : ε),
    t.Refuses s (onLog x).calls k e →
      (x σ ε t s).calls = (onLog x).calls.take (k + 1) ∧
      ∃ before c rest, (onLog x).journal = before ++ .call c :: rest ∧
        x σ ε t s =
          ⟨t.after s ((onLog x).calls.take (k + 1)), before ++ [.call c], .error e⟩
  refusing : ∀ n, (x _ _ (Target.refusing (some n)) {}).state =
    ⟨min (n + 1) (onLog x).calls.length, (onLog x).calls.take n⟩

theorem followsLog_perform (js : List Step) : FollowsLog fun _ _ => perform js := by
  have hlog : (onLog fun _ _ => perform js) = ⟨js.filterMap Step.call?, js, .ok ()⟩ :=
    perform_log []
  constructor
  · rw [hlog]
  · rw [hlog]
    rfl
  · intro σ ε t s h
    rw [hlog] at h ⊢
    exact perform_accepted h
  · intro σ ε t s k e h
    rw [hlog] at h ⊢
    obtain ⟨before, c, rest, hj, hb, hr⟩ := perform_refused h
    refine ⟨?_, before, c, rest, hj, hr⟩
    rw [hr]
    exact hb
  · intro n
    have h := @perform_refusing js n 0 (Nat.zero_le n) []
    rw [Nat.zero_add, Nat.sub_zero] at h
    rw [hlog]
    exact h

/-- Whatever is asked for and whatever is allowed, a refusal cuts calls and notices at one point. -/
theorem requests_followLog (allowed : AllowList) (r : Option ReadRequest)
    (d : Option DeleteRequest) (i : Option InsertRequest) (u : Option UpdateRequest) :
    FollowsLog (fun _ _ => read r allowed) ∧ FollowsLog (fun _ _ => select r allowed) ∧
      FollowsLog (fun _ _ => delete d allowed) ∧ FollowsLog (fun _ _ => insert i allowed) ∧
      FollowsLog (fun _ _ => update u allowed) := by
  have hread : ∀ r, FollowsLog fun _ _ => read r allowed := by
    intro r
    simp only [read_eq]
    exact followsLog_perform _
  refine ⟨hread r, hread r, hread d, ?_, ?_⟩
  · simp only [insert_eq]
    exact followsLog_perform _
  · simp only [update_eq]
    exact followsLog_perform _

end Compilation

end Criteria
