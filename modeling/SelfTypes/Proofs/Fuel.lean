import SelfTypes.Proofs.Depth
import SelfTypes.Proofs.Progress

/-!
# Fuel is a threshold

A limit on the number of reduction steps has one effect: it stops a run that takes more steps. A run
with an unlimited budget and the same run with a limit go through the same states until the limit
is reached, and then the second one fails.

The simulation `Meters` is shown for whole computations at a fixed depth. It is a congruence, so it
holds of everything the kernel and the elaborator do. Main statement: `fuel_threshold`.
-/

namespace SelfTypes

/-- States that carry a budget. -/
class Budgeted (σ : Type) where
  fuel : σ → Fuel
  setFuel : Fuel → σ → σ
  fuel_setFuel : ∀ f s, fuel (setFuel f s) = f
  setFuel_setFuel : ∀ f g s, setFuel f (setFuel g s) = setFuel f s

/-- Failures, some of which report a budget of a given limit as used up. -/
class ReportsFuel (ε : Type) where
  outOfFuel : Nat → ε → Prop

namespace Budgeted

variable {σ ε α β : Type} [Budgeted σ] [ReportsFuel ε]

/-- The steps that have been taken. -/
def spent (s : σ) : Nat :=
  (fuel s).used

/-- The state with a limit and the same steps taken. -/
def limited (limit : Nat) (s : σ) : σ :=
  setFuel ⟨some limit, (fuel s).used⟩ s

/-- The state with the given limit, if any, and nothing spent yet. -/
def afresh (limit : Option Nat) (s : σ) : σ :=
  setFuel ⟨limit, 0⟩ s

@[simp] theorem spent_afresh (limit : Option Nat) (s : σ) : spent (afresh limit s) = 0 := by
  rw [spent, afresh, fuel_setFuel]

theorem limit_afresh (limit : Option Nat) (s : σ) : (fuel (afresh limit s)).limit = limit := by
  rw [afresh, fuel_setFuel]

theorem limited_afresh (limit : Nat) (initial : Option Nat) (s : σ) :
    limited limit (afresh initial s) = afresh (some limit) s := by
  rw [limited, afresh, fuel_setFuel, setFuel_setFuel, afresh]

/-- The ending of a run that was stopped by the limit: the failure says so, and exactly the limit
has been spent. -/
def RanOut (limit : Nat) (r : EStateM.Result (Halt ε) σ α) : Prop :=
  ∃ e s, r = .error (.failed e) s ∧ ReportsFuel.outOfFuel limit e ∧ spent s = limit

theorem RanOut.isAnswer {limit : Nat} {r : EStateM.Result (Halt ε) σ α} (h : RanOut limit r) :
    IsAnswer r := by
  obtain ⟨e, s, rfl, -, -⟩ := h
  exact isAnswer_failed e s

/-! ## Runs with and without a limit -/

/-- What a run with a limit comes to, given what the run without one comes to: the same if the
limit covers the steps of the latter, and otherwise a failure at the limit. -/
structure Cut (limit : Nat) (r r' : EStateM.Result (Halt ε) σ α) : Prop where
  covered : spent r.state ≤ limit → r' = r.mapState (limited limit)
  exceeded : limit < spent r.state → RanOut limit r'

/-- `s'` is unlimited if `s` is, and has no fewer steps behind it. -/
structure Later (s s' : σ) : Prop where
  unlimited : (fuel s).limit = none → (fuel s').limit = none
  spent : spent s ≤ spent s'

theorem Later.refl (s : σ) : Later s s :=
  ⟨id, Nat.le_refl _⟩

theorem Later.trans (s₁ s₂ s₃ : σ) (h : Later s₁ s₂) (h' : Later s₂ s₃) : Later s₁ s₃ :=
  ⟨fun hs => h'.unlimited (h.unlimited hs), Nat.le_trans h.spent h'.spent⟩

/-- `y` under the limit follows `x` without one. -/
structure Meters (limit : Nat) (x y : EStateM (Halt ε) σ α) : Prop where
  progresses : Progresses Later x
  cut : ∀ s, (fuel s).limit = none → spent s ≤ limit → Cut limit (x s) (y (limited limit s))

/-- A computation that does not touch the budget is metered under every limit. -/
theorem Meters.of_carries {limit : Nat} {x y : EStateM (Halt ε) σ α}
    (hfuel : ∀ s, fuel (x s).state = fuel s) (h : Carries (limited limit) x y) :
    Meters limit x y where
  progresses s := by
    refine ⟨fun hs => ?_, ?_⟩
    · rw [hfuel, hs]
    · exact Nat.le_of_eq (congrArg Fuel.used (hfuel s)).symm
  cut s hs hle := by
    refine ⟨fun _ => h s, fun hlt => ?_⟩
    rw [spent, hfuel] at hlt
    exact absurd hlt (Nat.not_lt.2 hle)

theorem Meters.bind {limit : Nat} {x y : EStateM (Halt ε) σ α}
    {f g : α → EStateM (Halt ε) σ β} (hxy : Meters limit x y)
    (hfg : ∀ a, Meters limit (f a) (g a)) : Meters limit (x >>= f) (y >>= g) where
  progresses := Progresses.bind Later.trans hxy.progresses fun a => (hfg a).progresses
  cut s hs hle := by
    have hcut := hxy.cut s hs hle
    have hprog := hxy.progresses s
    cases hx : x s with
    | error e s' =>
      -- the second part is not reached, with or without the limit
      rw [hx] at hcut
      rw [EStateM.bind_of_error hx]
      refine ⟨?_, ?_⟩
      · intro hle'
        rw [EStateM.bind_of_error (hcut.covered hle')]
        rfl
      · intro hlt
        obtain ⟨e', t, hy, hreport, hspent⟩ := hcut.exceeded hlt
        exact ⟨e', t, EStateM.bind_of_error hy, hreport, hspent⟩
    | ok a s' =>
      rw [hx] at hcut hprog
      rw [EStateM.bind_of_ok hx]
      rcases Nat.lt_or_ge limit (spent s') with hlt | hle'
      · -- the limit is passed in the first part, and the second part gives no step back
        obtain ⟨e', t, hy, hreport, hspent⟩ := hcut.exceeded hlt
        have hmore : limit < spent (f a s').state :=
          Nat.lt_of_lt_of_le hlt ((hfg a).progresses s').spent
        refine ⟨fun hcovered => ?_, fun _ => ?_⟩
        · exact absurd hmore (Nat.not_lt.2 hcovered)
        · exact ⟨e', t, EStateM.bind_of_error hy, hreport, hspent⟩
      · -- the second part starts in the same state but for the limit
        rw [EStateM.bind_of_ok (hcut.covered hle')]
        exact (hfg a).cut s' (hprog.unlimited hs) hle'

end Budgeted

/-! ## The kernel -/

namespace Kernel

instance : Budgeted Kernel where
  fuel k := k.fuel
  setFuel fuel k := { k with fuel }
  fuel_setFuel _ _ := rfl
  setFuel_setFuel _ _ _ := rfl

instance : ReportsFuel OutOfFuel where
  outOfFuel limit e := e = ⟨limit⟩

theorem meters_burn (limit : Nat) : Budgeted.Meters limit Kernel.burn Kernel.burn where
  progresses k := by
    have h := progresses_burn k
    exact ⟨fun hk => h.limit.trans hk, h.used⟩
  cut k hk hle := by
    have hlimited : (Budgeted.limited limit k).fuel.limit = some limit := rfl
    rw [burn_of_unlimited hk]
    refine ⟨fun hcovered => ?_, fun hlt => ?_⟩
    · exact burn_of_lt hlimited hcovered
    · -- this is the step that the limit does not allow
      have hused : k.fuel.used = limit := Nat.le_antisymm hle (Nat.le_of_lt_succ hlt)
      exact ⟨⟨limit⟩, _, burn_of_le hlimited (Nat.le_of_eq hused.symm), rfl, hused⟩

theorem isCongruence_meters (limit : Nat) : IsCongruence fun _ => Budgeted.Meters limit where
  pure _ := .of_carries (fun _ => rfl) fun _ => rfl
  bind := .bind
  giveUp := .of_carries (fun _ => rfl) fun _ => rfl
  note _ := .of_carries (fun _ => rfl) fun _ => rfl
  burn := meters_burn limit
  fresh _ := .of_carries (fun _ => rfl) fun _ => rfl

end Kernel

/-! ## The elaborator -/

namespace Elaborator

instance : Budgeted Elaborator where
  fuel e := e.kernel.fuel
  setFuel fuel e := { e with kernel := { e.kernel with fuel } }
  fuel_setFuel _ _ := rfl
  setFuel_setFuel _ _ _ := rfl

instance : ReportsFuel Failure where
  outOfFuel limit f := f.cause = .outOfFuel limit

theorem meters_within (limit : Nat) {α : Type} (task : Task) {x y : ElaboratorM α}
    (hxy : Budgeted.Meters limit x y) :
    Budgeted.Meters limit (within task x) (within task y) where
  progresses e := by
    have h := hxy.progresses { e with stack := task :: e.stack }
    rw [within_apply, EStateM.Result.state_mapState]
    exact ⟨h.unlimited, h.spent⟩
  cut e he hle := by
    have h := hxy.cut { e with stack := task :: e.stack } he hle
    rw [within_apply, within_apply]
    refine ⟨fun hcovered => ?_, fun hlt => ?_⟩
    · -- both sides close the task, which the budget does not see
      rw [EStateM.Result.state_mapState] at hcovered
      have hy := congrArg (EStateM.Result.mapState fun e' => { e' with stack := e.stack })
        (h.covered hcovered)
      rw [EStateM.Result.mapState_mapState] at hy ⊢
      exact hy
    · rw [EStateM.Result.state_mapState] at hlt
      obtain ⟨f, t, hy, hreport, hspent⟩ := h.exceeded hlt
      exact ⟨f, { t with stack := e.stack }, congrArg _ hy, hreport, hspent⟩

theorem liftEnding_limited (limit : Nat) {α : Type} (e : Elaborator)
    (r : EStateM.Result (Halt OutOfFuel) Kernel α) :
    liftEnding (Budgeted.limited limit e) (r.mapState (Budgeted.limited limit)) =
      (liftEnding e r).mapState (Budgeted.limited limit) := by
  cases r with
  | ok a k => rfl
  | error halt k => cases halt <;> rfl

theorem meters_lift (limit : Nat) {α : Type} {x y : KernelM α}
    (hxy : Budgeted.Meters limit x y) : Budgeted.Meters limit (lift x) (lift y) where
  progresses e := by
    have h := hxy.progresses e.kernel
    rw [lift_apply, state_liftEnding]
    exact ⟨h.unlimited, h.spent⟩
  cut e he hle := by
    have h := hxy.cut e.kernel he hle
    rw [lift_apply, lift_apply]
    refine ⟨fun hcovered => ?_, fun hlt => ?_⟩
    · rw [state_liftEnding] at hcovered
      have hy := congrArg (liftEnding (Budgeted.limited limit e)) (h.covered hcovered)
      exact hy.trans (liftEnding_limited limit e (x e.kernel))
    · rw [state_liftEnding] at hlt
      obtain ⟨f, t, hy, rfl, hspent⟩ := h.exceeded hlt
      exact ⟨_, _, congrArg (liftEnding _) hy, rfl, hspent⟩

theorem isCongruence_meters (limit : Nat) :
    IsCongruence (fun _ => Budgeted.Meters limit) fun _ => Budgeted.Meters limit where
  kernel := Kernel.isCongruence_meters limit
  pure _ := .of_carries (fun _ => rfl) fun _ => rfl
  bind := .bind
  giveUp := .of_carries (fun _ => rfl) fun _ => rfl
  raise _ := .of_carries (fun _ => rfl) fun _ => rfl
  within task _ _ h := meters_within limit task h
  lift h := meters_lift limit h

end Elaborator

/-! ## The threshold -/

/-- What a limit does to a call in the state `s` with nothing spent yet. -/
structure FuelThreshold {σ ε α : Type} [Budgeted σ] [ReportsFuel ε]
    (call : Nat → EStateM (Halt ε) σ α) (s : σ) (limit : Nat) : Prop where
  /-- If the unlimited call finishes within the limit, the limited one finishes in the same way,
  in the same state but for the limit. -/
  covered : ∀ r, Returns call (Budgeted.afresh none s) r → Budgeted.spent r.state ≤ limit →
    Returns call (Budgeted.afresh (some limit) s) (r.mapState (Budgeted.limited limit))
  /-- If the unlimited call finishes beyond the limit, the limited one runs out. -/
  exceeded : ∀ r, Returns call (Budgeted.afresh none s) r → limit < Budgeted.spent r.state →
    ∃ r', Returns call (Budgeted.afresh (some limit) s) r' ∧ Budgeted.RanOut limit r'
  /-- If the unlimited call never finishes, and goes beyond the limit as it is followed deeper,
  the limited one runs out. -/
  endless : ¬ Terminates call (Budgeted.afresh none s) →
    (∃ depth, limit < Budgeted.spent (call depth (Budgeted.afresh none s)).state) →
    ∃ r', Returns call (Budgeted.afresh (some limit) s) r' ∧ Budgeted.RanOut limit r'

theorem FuelThreshold.of_meters {σ ε α : Type} [Budgeted σ] [ReportsFuel ε]
    {call : Nat → EStateM (Halt ε) σ α} {limit : Nat} (hcall : Deepens call)
    (h : ∀ depth, Budgeted.Meters limit (call depth) (call depth)) (s : σ) :
    FuelThreshold call s limit := by
  have hcut : ∀ depth, Budgeted.Cut limit (call depth (Budgeted.afresh none s))
      (call depth (Budgeted.afresh (some limit) s)) := by
    intro depth
    rw [← Budgeted.limited_afresh limit none s]
    exact (h depth).cut _ (Budgeted.limit_afresh none s) (by simp)
  have runsOut : ∀ depth, limit < Budgeted.spent (call depth (Budgeted.afresh none s)).state →
      ∃ r', Returns call (Budgeted.afresh (some limit) s) r' ∧ Budgeted.RanOut limit r' := by
    intro depth hlt
    have hout := (hcut depth).exceeded hlt
    exact ⟨_, hcall.returns depth hout.isAnswer, hout⟩
  refine ⟨?_, ?_, ?_⟩
  · rintro r ⟨hr, depth, hdepth⟩ hle
    -- the limited call has its answer at the depths where the unlimited one has it
    refine ⟨hr.mapState _, depth, fun d hd => ?_⟩
    rw [← hdepth d hd] at hle ⊢
    exact (hcut d).covered hle
  · intro r hreturns hlt
    obtain ⟨depth, rfl⟩ := hreturns.exists_depth
    exact runsOut depth hlt
  · -- going beyond the limit is enough, whether or not the call would finish later
    rintro - ⟨depth, hlt⟩
    exact runsOut depth hlt

/-- Fuel is exactly a threshold, for every call that the kernel or the elaborator answers. -/
theorem fuel_threshold (env : Environment) (limit : Nat) :
    (∀ k : Kernel,
      (∀ t, FuelThreshold (fun d => Kernel.reduce env.table d t) k limit) ∧
      (∀ a b, FuelThreshold (fun d => Kernel.equal env.table d a b) k limit) ∧
      ∀ ty, FuelThreshold (fun d => Kernel.classify env.table d ty) k limit) ∧
    ∀ e : Elaborator,
      (∀ t, FuelThreshold (fun d => Elaborator.reduce env d t) e limit) ∧
      (∀ a b, FuelThreshold (fun d => Elaborator.equal env d a b) e limit) ∧
      (∀ ty, FuelThreshold (fun d => Elaborator.classify env d ty) e limit) ∧
      (∀ ctx t, FuelThreshold (fun d => Elaborator.infer env d ctx t) e limit) ∧
      (∀ ctx t ty, FuelThreshold (fun d => Elaborator.check env d ctx t ty) e limit) ∧
      ∀ name, FuelThreshold (fun d => Elaborator.definition env d name) e limit := by
  have kernel := Kernel.isCongruence_meters limit
  have elaborator := Elaborator.isCongruence_meters limit
  refine ⟨?_, ?_⟩
  · intro k
    refine ⟨fun t => ?_, fun a b => ?_, fun ty => ?_⟩
    · exact .of_meters (Kernel.deepens_reduce env.table t)
        (fun d => kernel.reduce env.table (.refl d) t) k
    · exact .of_meters (Kernel.deepens_equal env.table a b)
        (fun d => kernel.equal env.table (.refl d) a b) k
    · exact .of_meters (Kernel.deepens_classify env.table ty)
        (fun d => kernel.classify env.table (.refl d) ty) k
  · intro e
    refine ⟨fun t => ?_, fun a b => ?_, fun ty => ?_, fun ctx t => ?_, fun ctx t ty => ?_,
      fun name => ?_⟩
    · exact .of_meters (Elaborator.deepens_reduce env t)
        (fun d => elaborator.reduce env (.refl d) t) e
    · exact .of_meters (Elaborator.deepens_equal env a b)
        (fun d => elaborator.equal env (.refl d) a b) e
    · exact .of_meters (Elaborator.deepens_classify env ty)
        (fun d => elaborator.classify env (.refl d) ty) e
    · exact .of_meters (Elaborator.deepens_infer env ctx t)
        (fun d => elaborator.infer env (.refl d) ctx t) e
    · exact .of_meters (Elaborator.deepens_check env ctx t ty)
        (fun d => elaborator.check env (.refl d) ctx t ty) e
    · exact .of_meters (Elaborator.deepens_definition env name)
        (fun d => elaborator.definition env (.refl d) name) e

/-- A name for a name of the universe, and a global that unfolds to itself. -/
def aliases : Table :=
  .ofList [⟨"U", .typ, .typ⟩, ⟨"V", .typ, .ref "U"⟩, ⟨"loop", .typ, .ref "loop"⟩]

/-- Without a limit, the unfolding of the last one never comes to an end. -/
theorem not_isAnswer_reduce_loop (depth : Nat) (k : Kernel) (hk : k.fuel.limit = none) :
    ¬ IsAnswer (Kernel.reduce aliases depth (.ref "loop") k) := by
  induction depth generalizing k with
  | zero => exact fun h => h k rfl
  | succ depth ih =>
    -- one step leads to the same call, in a state that is unlimited still
    have hfind : aliases.find? "loop" = some ⟨"loop", .typ, .ref "loop"⟩ := rfl
    simp only [Kernel.reduce, hfind]
    rw [EStateM.bind_of_ok (Kernel.burn_of_unlimited hk)]
    exact ih _ rfl

/-- Reducing the second name takes two steps and fits into as many, the same steps go beyond a limit
of one when they are taken to check the universe against that name, and the last global uses up any
limit. -/
theorem aliases_threshold :
    (∃ k, Returns (fun d => Kernel.reduce aliases d (.ref "V")) (.start ⟨0, 0⟩ (some 2))
        (.ok .typ k) ∧ Budgeted.spent k = 2) ∧
      (∃ r, Returns (fun d => Elaborator.check ⟨aliases, true⟩ d .empty .typ (.ref "V"))
        (.start ⟨0, 0⟩ (some 1)) r ∧ Budgeted.RanOut 1 r) ∧
      ∃ r, Returns (fun d => Kernel.reduce aliases d (.ref "loop")) (.start ⟨0, 0⟩ (some 3)) r ∧
        Budgeted.RanOut 3 r := by
  -- the runs without a limit: two steps, two steps, and no end
  have hreduced : IsAnswer (Kernel.reduce aliases 3 (.ref "V") (Kernel.start ⟨0, 0⟩ none)) :=
    isAnswer_ok _ _
  have hchecked : IsAnswer (Elaborator.check ⟨aliases, true⟩ 4 .empty .typ (.ref "V")
      (Elaborator.start ⟨0, 0⟩ none)) := isAnswer_ok _ _
  have hloop : ¬ Terminates (fun d => Kernel.reduce aliases d (.ref "loop"))
      (Kernel.start ⟨0, 0⟩ none) := by
    rintro ⟨r, hr⟩
    obtain ⟨depth, rfl⟩ := hr.exists_depth
    exact not_isAnswer_reduce_loop depth _ rfl hr.1
  refine ⟨?_, ?_, ?_⟩
  · obtain ⟨hreduce, -, -⟩ := (fuel_threshold ⟨aliases, true⟩ 2).1 (.start ⟨0, 0⟩ none)
    have hreturns := (Kernel.deepens_reduce aliases (.ref "V")).returns 3 hreduced
    exact ⟨_, (hreduce (.ref "V")).covered _ hreturns (by decide), rfl⟩
  · obtain ⟨-, -, -, -, hcheck, -⟩ := (fuel_threshold ⟨aliases, true⟩ 1).2 (.start ⟨0, 0⟩ none)
    have hreturns :=
      (Elaborator.deepens_check ⟨aliases, true⟩ .empty .typ (.ref "V")).returns 4 hchecked
    exact (hcheck .empty .typ (.ref "V")).exceeded _ hreturns (by decide)
  · obtain ⟨hreduce, -, -⟩ := (fuel_threshold ⟨aliases, true⟩ 3).1 (.start ⟨0, 0⟩ none)
    exact (hreduce (.ref "loop")).endless hloop ⟨4, by decide⟩

end SelfTypes
