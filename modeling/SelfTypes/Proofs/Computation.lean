import SelfTypes.Kernel.Basic

/-!
# Computations that may halt

The kernel, the elaborator and builds compute in one way: from a state to a value or a reason to
halt, and to the state that is left behind. Here are the properties of computations that the theory
of all three rests on. Each one is kept when computations are put in sequence.

* `Refines x y`: an answer of `x` is the answer of `y`.
* `Progresses le x`: the state that `x` leaves is `le`-above the one it starts in.
* `Carries g x y`: in the state `g s`, `y` does what `x` does in `s`.
* `Oblivious x`: what `x` comes to does not depend on the state.

A family of computations, one for each bound on the depth of calls, *returns* what its members
answer from some depth on. Main statements: `Returns.unique`, `Returns.bind` and
`Terminates.bind`, and `Deepens.returns` for families in which deeper members refine the others.
-/

namespace EStateM

variable {ε σ α β : Type}

/-! ## Endings -/

namespace Result

/-- The state that is left at the end. -/
def state : Result ε σ α → σ
  | ok _ s => s
  | error _ s => s

/-- The same ending in another state. -/
def mapState (g : σ → σ) : Result ε σ α → Result ε σ α
  | ok a s => ok a (g s)
  | error e s => error e (g s)

/-- The value of a successful end. -/
def value? : Result ε σ α → Option α
  | ok a _ => some a
  | error _ _ => none

/-- A result with a value is a success. -/
theorem exists_ok_of_value? {r : Result ε σ α} {a : α} (h : r.value? = some a) :
    ∃ s, r = ok a s := by
  cases r with
  | ok b s =>
    cases h
    exact ⟨s, rfl⟩
  | error e s => cases h

/-- The reason to halt, if the end is not a success. -/
def halt? : Result ε σ α → Option ε
  | ok _ _ => none
  | error e _ => some e

/-- A result with a reason to halt is no success. -/
theorem exists_error_of_halt? {r : Result ε σ α} {e : ε} (h : r.halt? = some e) :
    ∃ s, r = error e s := by
  cases r with
  | ok a s => cases h
  | error e' s =>
    cases h
    exact ⟨s, rfl⟩

/-- The value, or the reason to halt, whatever state is left. -/
def verdict : Result ε σ α → Except ε α
  | ok a _ => .ok a
  | error e _ => .error e

@[simp] theorem state_ok (a : α) (s : σ) : (ok a s : Result ε σ α).state = s := rfl

@[simp] theorem state_error (e : ε) (s : σ) : (error e s : Result ε σ α).state = s := rfl

@[simp] theorem mapState_ok (g : σ → σ) (a : α) (s : σ) :
    (ok a s : Result ε σ α).mapState g = ok a (g s) := rfl

@[simp] theorem mapState_error (g : σ → σ) (e : ε) (s : σ) :
    (error e s : Result ε σ α).mapState g = error e (g s) := rfl

theorem mapState_mapState (f g : σ → σ) (r : Result ε σ α) :
    (r.mapState f).mapState g = r.mapState fun s => g (f s) := by
  cases r <;> rfl

@[simp] theorem state_mapState (g : σ → σ) (r : Result ε σ α) :
    (r.mapState g).state = g r.state := by
  cases r <;> rfl

end Result

/-! ## Sequencing -/

theorem bind_apply (x : EStateM ε σ α) (f : α → EStateM ε σ β) (s : σ) :
    (x >>= f) s = match x s with
      | .ok a s' => f a s'
      | .error e s' => .error e s' := rfl

theorem bind_of_ok {x : EStateM ε σ α} {f : α → EStateM ε σ β} {s s' : σ} {a : α}
    (h : x s = .ok a s') : (x >>= f) s = f a s' := by
  rw [bind_apply, h]

theorem bind_of_error {x : EStateM ε σ α} {f : α → EStateM ε σ β} {s s' : σ} {e : ε}
    (h : x s = .error e s') : (x >>= f) s = .error e s' := by
  rw [bind_apply, h]

theorem eq_of_pure_ok {a b : α} {s t : σ} (h : (pure a : EStateM ε σ α) s = .ok b t) : a = b := by
  cases h
  rfl

/-- A sequence that succeeds does so through a value of its first part. -/
theorem ok_of_bind_ok {x : EStateM ε σ α} {f : α → EStateM ε σ β} {s t : σ} {b : β}
    (h : (x >>= f) s = .ok b t) : ∃ a s', x s = .ok a s' ∧ f a s' = .ok b t := by
  cases hx : x s with
  | ok a s' => exact ⟨a, s', rfl, by rw [← h, bind_of_ok hx]⟩
  | error e s' =>
    rw [bind_of_error hx] at h
    cases h

/-- A sequence that fails does so in its first part or after it. -/
theorem error_of_bind_error {x : EStateM ε σ α} {f : α → EStateM ε σ β} {s t : σ} {e : ε}
    (h : (x >>= f) s = .error e t) :
    x s = .error e t ∨ ∃ a s', x s = .ok a s' ∧ f a s' = .error e t := by
  cases hx : x s with
  | ok a s' => exact .inr ⟨a, s', rfl, by rw [← h, bind_of_ok hx]⟩
  | error e' s' =>
    rw [bind_of_error hx] at h
    cases h
    exact .inl rfl

end EStateM

namespace SelfTypes

variable {ε σ α β : Type}

/-! ## Answers -/

/-- An ending that is not for want of depth: a value or a failure. -/
def IsAnswer (r : EStateM.Result (Halt ε) σ α) : Prop :=
  ∀ s, r ≠ .error .unfinished s

theorem isAnswer_ok (a : α) (s : σ) : IsAnswer (.ok a s : EStateM.Result (Halt ε) σ α) := by
  intro s' h
  cases h

theorem isAnswer_failed (e : ε) (s : σ) :
    IsAnswer (.error (.failed e) s : EStateM.Result (Halt ε) σ α) := by
  intro s' h
  cases h

theorem IsAnswer.mapState {r : EStateM.Result (Halt ε) σ α} (h : IsAnswer r) (g : σ → σ) :
    IsAnswer (r.mapState g) := by
  cases r with
  | ok a s => exact isAnswer_ok a (g s)
  | error e s =>
    cases e with
    | failed e => exact isAnswer_failed e (g s)
    | unfinished => exact absurd rfl (h s)

theorem IsAnswer.of_mapState {r : EStateM.Result (Halt ε) σ α} {g : σ → σ}
    (h : IsAnswer (r.mapState g)) : IsAnswer r := by
  rintro s rfl
  exact h (g s) rfl

/-- If a sequence has an answer, so has its first part. -/
theorem IsAnswer.of_bind {x : EStateM (Halt ε) σ α} {f : α → EStateM (Halt ε) σ β} {s : σ}
    (h : IsAnswer ((x >>= f) s)) : IsAnswer (x s) := by
  intro s' hx
  exact h s' (EStateM.bind_of_error hx)

/-! ## Refinement -/

/-- Every answer of `x` is the answer of `y`. -/
def Refines (x y : EStateM (Halt ε) σ α) : Prop :=
  ∀ s, IsAnswer (x s) → y s = x s

theorem Refines.refl (x : EStateM (Halt ε) σ α) : Refines x x :=
  fun _ _ => rfl

theorem Refines.bind {x y : EStateM (Halt ε) σ α} {f g : α → EStateM (Halt ε) σ β}
    (hxy : Refines x y) (hfg : ∀ a, Refines (f a) (g a)) : Refines (x >>= f) (y >>= g) := by
  intro s h
  have hy : y s = x s := hxy s h.of_bind
  cases hx : x s with
  | ok a s' =>
    -- both second parts start from the value and the state of `x`
    rw [EStateM.bind_of_ok hx] at h ⊢
    rw [EStateM.bind_of_ok (hy.trans hx)]
    exact hfg a s' h
  -- the first part has failed, and refinement gives the same failure
  | error e s' => rw [EStateM.bind_of_error hx, EStateM.bind_of_error (hy.trans hx)]

/-! ## Progress -/

/-- The state that a computation leaves is above the one it starts in. -/
def Progresses (le : σ → σ → Prop) (x : EStateM ε σ α) : Prop :=
  ∀ s, le s (x s).state

theorem Progresses.bind {le : σ → σ → Prop} (trans : ∀ a b c, le a b → le b c → le a c)
    {x : EStateM ε σ α} {f : α → EStateM ε σ β} (hx : Progresses le x)
    (hf : ∀ a, Progresses le (f a)) : Progresses le (x >>= f) := by
  intro s
  have hs := hx s
  cases h : x s with
  -- from the start to the state in between, and from there to the end
  | ok a s' =>
    rw [h] at hs
    rw [EStateM.bind_of_ok h]
    exact trans _ _ _ hs (hf a s')
  | error e s' =>
    rw [h] at hs
    rw [EStateM.bind_of_error h]
    exact hs

theorem Progresses.of_ok {le : σ → σ → Prop} {x : EStateM ε σ α} (hx : Progresses le x) {a : α}
    {s s' : σ} (h : x s = .ok a s') : le s s' := by
  have hs := hx s
  rw [h] at hs
  exact hs

/-! ## Changes of state -/

/-- In the state `g s`, `y` does what `x` does in `s`, and `g` is carried along. -/
def Carries (g : σ → σ) (x y : EStateM ε σ α) : Prop :=
  ∀ s, y (g s) = (x s).mapState g

theorem Carries.bind {g : σ → σ} {x y : EStateM ε σ α} {f h : α → EStateM ε σ β}
    (hxy : Carries g x y) (hfh : ∀ a, Carries g (f a) (h a)) :
    Carries g (x >>= f) (y >>= h) := by
  intro s
  have hy := hxy s
  -- `g` is moved past the first part, and then past the second
  cases hx : x s with
  | ok a s' =>
    rw [hx] at hy
    rw [EStateM.bind_of_ok hx, EStateM.bind_of_ok hy]
    exact hfh a s'
  | error e s' =>
    rw [hx] at hy
    rw [EStateM.bind_of_error hx, EStateM.bind_of_error hy]
    rfl

/-! ## Computations that do not look at the state -/

/-- Whatever the state is, the computation comes to the same value or halts for the same reason. -/
def Oblivious (x : EStateM ε σ α) : Prop :=
  ∀ s s', (x s).verdict = (x s').verdict

theorem Oblivious.bind {x : EStateM ε σ α} {f : α → EStateM ε σ β} (hx : Oblivious x)
    (hf : ∀ a, Oblivious (f a)) : Oblivious (x >>= f) := by
  intro s s'
  have h := hx s s'
  rw [EStateM.bind_apply, EStateM.bind_apply]
  generalize x s = r, x s' = r' at h ⊢
  -- both first parts end in the same way, in states of their own
  cases r <;> cases r' <;> cases h
  · exact hf _ _ _
  · rfl

/-! ## Families by depth -/

/-- Deeper members of the family refine the others. -/
def Deepens (run : Nat → EStateM (Halt ε) σ α) : Prop :=
  ∀ d d' : Nat, d ≤ d' → Refines (run d) (run d')

/-- From some depth on, all members of the family have this answer. -/
def Returns (run : Nat → EStateM (Halt ε) σ α) (s : σ) (r : EStateM.Result (Halt ε) σ α) : Prop :=
  IsAnswer r ∧ ∃ depth, ∀ d, depth ≤ d → run d s = r

/-- From some depth on, all members of the family have the same answer. -/
def Terminates (run : Nat → EStateM (Halt ε) σ α) (s : σ) : Prop :=
  ∃ r, Returns run s r

section Families

variable {run : Nat → EStateM (Halt ε) σ α} {s s' : σ} {r r' : EStateM.Result (Halt ε) σ α}

/-- Where deeper members refine the others, an answer of one member is returned. -/
theorem Deepens.returns (hrun : Deepens run) (depth : Nat) (hr : IsAnswer (run depth s)) :
    Returns run s (run depth s) :=
  ⟨hr, depth, fun d hd => hrun depth d hd s hr⟩

/-- Where deeper members refine the others, a value of one member is returned. -/
theorem Deepens.returns_of_value? (hrun : Deepens run) (s : σ) (a : α) (depth : Nat)
    (h : (run depth s).value? = some a) : ∃ s', Returns run s (.ok a s') := by
  obtain ⟨s', hok⟩ := EStateM.Result.exists_ok_of_value? h
  have hreturns := hrun.returns depth (s := s)
  rw [hok] at hreturns
  exact ⟨s', hreturns (isAnswer_ok a s')⟩

/-- Where deeper members refine the others, a failure of one member is returned. -/
theorem Deepens.returns_of_halt? (hrun : Deepens run) (s : σ) (e : ε) (depth : Nat)
    (h : (run depth s).halt? = some (.failed e)) : ∃ s', Returns run s (.error (.failed e) s') := by
  obtain ⟨s', hfailed⟩ := EStateM.Result.exists_error_of_halt? h
  have hreturns := hrun.returns depth (s := s)
  rw [hfailed] at hreturns
  exact ⟨s', hreturns (isAnswer_failed e s')⟩

theorem Returns.exists_depth (h : Returns run s r) : ∃ depth, run depth s = r := by
  obtain ⟨-, depth, hd⟩ := h
  exact ⟨depth, hd depth (Nat.le_refl depth)⟩

/-- What two families return, they come to within one and the same depth. -/
theorem Returns.exists_common_depth {ε' σ' β : Type} (h : Returns run s r)
    {run' : Nat → EStateM (Halt ε') σ' β} {t : σ'} {q : EStateM.Result (Halt ε') σ' β}
    (h' : Returns run' t q) : ∃ depth, run depth s = r ∧ run' depth t = q := by
  obtain ⟨-, d, hd⟩ := h
  obtain ⟨-, d', hd'⟩ := h'
  exact ⟨max d d', hd _ (Nat.le_max_left d d'), hd' _ (Nat.le_max_right d d')⟩

/-- A family returns at most one answer. -/
theorem Returns.unique (h : Returns run s r) (h' : Returns run s r') : r = r' := by
  obtain ⟨d, rfl, rfl⟩ := h.exists_common_depth h'
  rfl

/-- What a family returns depends on the endings of its members only. -/
theorem returns_congr {run' : Nat → EStateM (Halt ε) σ α} {t : σ}
    (h : ∀ d, run d s = run' d t) : Returns run s r ↔ Returns run' t r := by
  simp only [Returns, h]

theorem terminates_congr {run' : Nat → EStateM (Halt ε) σ α} {t : σ}
    (h : ∀ d, run d s = run' d t) : Terminates run s ↔ Terminates run' t :=
  exists_congr fun _ => returns_congr h

/-- A computation that does not depend on the depth returns what it comes to. -/
theorem returns_const {x : EStateM (Halt ε) σ α} (hx : x s = r) (h : IsAnswer r) :
    Returns (fun _ => x) s r :=
  ⟨h, 0, fun _ _ => hx⟩

/-- A value that a family returns is one that a member leaves the state with. -/
theorem Returns.progresses {le : σ → σ → Prop} (hrun : ∀ d, Progresses le (run d)) {a : α}
    (h : Returns run s (.ok a s')) : le s s' := by
  obtain ⟨d, hd⟩ := h.exists_depth
  exact (hrun d).of_ok hd

/-- A computation that does not depend on the depth terminates if it succeeds. -/
theorem terminates_of_ok {x : EStateM (Halt ε) σ α} {a : α} (hx : x s = .ok a s') :
    Terminates (fun _ => x) s :=
  ⟨_, returns_const hx (isAnswer_ok a s')⟩

theorem terminates_pure (a : α) (s : σ) :
    Terminates (fun _ => (pure a : EStateM (Halt ε) σ α)) s :=
  terminates_of_ok rfl

/-- What the next deeper members return is returned. -/
theorem Returns.of_succ (h : Returns (fun d => run (d + 1)) s r) : Returns run s r := by
  obtain ⟨hr, depth, hd⟩ := h
  refine ⟨hr, depth + 1, fun d hle => ?_⟩
  -- a depth beyond the given one is the successor of one that is at least as large
  obtain ⟨d, rfl⟩ : ∃ d', d = d' + 1 := ⟨d - 1, by omega⟩
  exact hd d (Nat.le_of_succ_le_succ hle)

theorem Terminates.of_succ (h : Terminates (fun d => run (d + 1)) s) : Terminates run s := by
  obtain ⟨r, hr⟩ := h
  exact ⟨r, hr.of_succ⟩

variable {f : Nat → α → EStateM (Halt ε) σ β}

/-- The answer of a sequence, from the value of its first part. -/
theorem Returns.bind {a : α} {q : EStateM.Result (Halt ε) σ β} (h : Returns run s (.ok a s'))
    (hnext : Returns (fun d => f d a) s' q) : Returns (fun d => run d >>= f d) s q := by
  -- from the larger of the two depths on, both parts have their answers
  obtain ⟨-, d₁, h₁⟩ := h
  obtain ⟨hq, d₂, h₂⟩ := hnext
  refine ⟨hq, max d₁ d₂, fun d hd => ?_⟩
  calc
    (run d >>= f d) s = f d a s' := EStateM.bind_of_ok (h₁ d (by omega))
    _ = q := h₂ d (by omega)

/-- A sequence whose first part fails fails with it. -/
theorem Returns.bind_failed {e : ε} (h : Returns run s (.error (.failed e) s')) :
    Returns (fun d => run d >>= f d) s (.error (.failed e) s') := by
  obtain ⟨-, depth, hd⟩ := h
  exact ⟨isAnswer_failed e s', depth, fun d hle => EStateM.bind_of_error (hd d hle)⟩

/-- A sequence terminates if its first part does, and its second part from every value and state
that the first part may return. -/
theorem Terminates.bind (h : Terminates run s)
    (hnext : ∀ a s', Returns run s (.ok a s') → Terminates (fun d => f d a) s') :
    Terminates (fun d => run d >>= f d) s := by
  obtain ⟨r, hr⟩ := h
  cases r with
  | ok a s' =>
    obtain ⟨q, hq⟩ := hnext a s' hr
    exact ⟨q, hr.bind hq⟩
  | error e s' =>
    cases e with
    | failed e => exact ⟨_, hr.bind_failed⟩
    | unfinished =>
      -- no family returns for want of depth
      exact absurd rfl (hr.1 s')

theorem Deepens.bind (hrun : Deepens run) (hf : ∀ a, Deepens fun d => f d a) :
    Deepens fun d => run d >>= f d :=
  fun d d' hle => (hrun d d' hle).bind fun a => hf a d d' hle

/-- What a sequence returns comes from a value of its first part, or is the failure of that. -/
theorem Deepens.returns_of_bind (hrun : Deepens run) {q : EStateM.Result (Halt ε) σ β}
    (h : Returns (fun d => run d >>= f d) s q) :
    (∃ a s', Returns run s (.ok a s') ∧ Returns (fun d => f d a) s' q) ∨
      ∃ e s', Returns run s (.error (.failed e) s') ∧ q = .error (.failed e) s' := by
  obtain ⟨hq, depth, hd⟩ := h
  have hseq : (run depth >>= f depth) s = q := hd depth (Nat.le_refl depth)
  -- the whole has an answer, so the first part has one as well
  have hfirst : IsAnswer (run depth s) := IsAnswer.of_bind (hseq.symm ▸ hq)
  have hreturns := hrun.returns depth hfirst
  cases ha : run depth s with
  | ok a s' =>
    rw [ha] at hreturns
    refine .inl ⟨a, s', hreturns, hq, depth, fun d hle => ?_⟩
    -- deeper members have the same first ending, so the second part starts in the same way
    calc
      f d a s' = (run d >>= f d) s :=
        (EStateM.bind_of_ok ((hrun depth d hle s hfirst).trans ha)).symm
      _ = q := hd d hle
  | error halt s' =>
    rw [ha] at hreturns
    cases halt with
    | failed e => exact .inr ⟨e, s', hreturns, hseq.symm.trans (EStateM.bind_of_error ha)⟩
    | unfinished => exact absurd ha (hfirst s')

/-- A sequence returns a value if its parts do, one after the other. -/
theorem Deepens.returns_bind_ok_iff (hrun : Deepens run) {b : β} {t : σ} :
    Returns (fun d => run d >>= f d) s (.ok b t) ↔
      ∃ a s', Returns run s (.ok a s') ∧ Returns (fun d => f d a) s' (.ok b t) := by
  refine ⟨?_, ?_⟩
  · intro h
    rcases hrun.returns_of_bind h with hok | ⟨e, s', -, hfailed⟩
    · exact hok
    · cases hfailed
  · intro h
    obtain ⟨a, s', ha, hb⟩ := h
    exact ha.bind hb

/-- A sequence fails where its first part does, or where its second part does after a value of the
first. -/
theorem Deepens.returns_bind_failed_iff (hrun : Deepens run) {e : ε} {t : σ} :
    Returns (fun d => run d >>= f d) s (.error (.failed e) t) ↔
      Returns run s (.error (.failed e) t) ∨
        ∃ a s', Returns run s (.ok a s') ∧
          Returns (fun d => f d a) s' (.error (.failed e) t) := by
  refine ⟨?_, ?_⟩
  · intro h
    rcases hrun.returns_of_bind h with hok | ⟨e', s', hfailed, heq⟩
    · exact .inr hok
    · cases heq
      exact .inl hfailed
  · intro h
    rcases h with h | ⟨a, s', ha, hb⟩
    · exact h.bind_failed
    · exact ha.bind hb

end Families

/-- Where the members of one family end as those of another do, so do the families. -/
theorem Deepens.returns_map_iff {ε' σ' : Type} {run : Nat → EStateM (Halt ε) σ α}
    {run' : Nat → EStateM (Halt ε') σ' β} (hrun : Deepens run) {s : σ} {s' : σ'}
    {g : EStateM.Result (Halt ε) σ α → EStateM.Result (Halt ε') σ' β}
    (hg : ∀ r, IsAnswer (g r) ↔ IsAnswer r) (hmap : ∀ d, run' d s' = g (run d s))
    {q : EStateM.Result (Halt ε') σ' β} :
    Returns run' s' q ↔ ∃ r, Returns run s r ∧ g r = q := by
  refine ⟨?_, ?_⟩
  · intro h
    obtain ⟨depth, rfl⟩ := h.exists_depth
    have hr := h.1
    rw [hmap] at hr
    exact ⟨_, hrun.returns depth ((hg _).1 hr), (hmap depth).symm⟩
  · intro h
    obtain ⟨r, ⟨hr, depth, hd⟩, rfl⟩ := h
    refine ⟨(hg r).2 hr, depth, fun d hle => ?_⟩
    rw [hmap, hd d hle]

end SelfTypes
