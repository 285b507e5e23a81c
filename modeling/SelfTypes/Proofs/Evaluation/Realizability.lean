import SelfTypes.Proofs.Code.Evaluation
import SelfTypes.Proofs.Kernel.Substitutivity

/-!
# Realizability

`Realizes table globals h t ty c` says that the code `c` does at run time what the term `t` does at
the type `ty`, as far as `h` steps of reduction can tell: where the term reduces to a function that
is not erased, the code evaluates to a function, and applying both to an argument and to code that
realizes it leads to a term and to code that realizes it, for the steps that are left. The parameter
of an erased function has no code, so there the code stays as it is.

Types count only as far as they tell functions from types: what has the universe as its type has no
code to speak of. Main statements: `Realizes.convert`, `Realizes.of_bare_eq` and
`Realizes.of_evaluatesTo`, by which convertible types, terms without annotations and locations, and
code that evaluates to the code in question can stand in its place.
-/

namespace SelfTypes

/-- The constructors that literals start with. -/
def Term.literalHeads : List DefName :=
  ["U16.new", "String.cons", "String.nil"]

/-- The steps that code keeps up with: literals are native values, so their constructors are not
unfolded, and an application is contracted only if it passes its argument the way that the function
takes it. -/
def HeadSteps.coherent : HeadSteps where
  unfolds name := name ∉ Term.literalHeads
  contracts er er' := er = er'

/-- The code does what the term does at the type, for that many steps: where the term reduces to a
function, it acts as that function for the steps that are left (see `Acts`). -/
def Realizes (table : Table) (globals : DefName → Option Code) (h : Nat) (t ty : Term)
    (c : Code) : Prop :=
  ∀ i < h, ∀ n er b, WeakHeadIn table .coherent i t (.lam n er b) → ¬ WeakHead table ty .typ →
    ∃ s m bind body, WeakHead table ty (.all s m bind body) ∧
      (er = true → ∀ j < h - i, ∀ a : Term, a.IsLocallyClosed →
        Realizes table globals j (b.instantiate [a]) (body.instantiate [.lam n er b, a]) c) ∧
      (er = false → ∃ p cb, c.EvaluatesTo globals (.lam p cb) ∧
        ∀ j < h - i, ∀ (a : Term) (v : Code), a.IsLocallyClosed → v.IsClosed →
          Realizes table globals j a bind v →
          Realizes table globals j (b.instantiate [a]) (body.instantiate [.lam n er b, a])
            (cb.replace p v))
termination_by h

/-- The code acts as the function at the type, for fewer than that many steps. The body of an erased
function is realized by the code itself; for another one, the code evaluates to a function, whose
body realizes that of the function, with a value in it that realizes the argument. -/
def Acts (table : Table) (globals : DefName → Option Code) (left : Nat) (n : BinderName)
    (er : Bool) (b ty : Term) (c : Code) : Prop :=
  ∃ s m bind body, WeakHead table ty (.all s m bind body) ∧
    (er = true → ∀ j < left, ∀ a : Term, a.IsLocallyClosed →
      Realizes table globals j (b.instantiate [a]) (body.instantiate [.lam n er b, a]) c) ∧
    (er = false → ∃ p cb, c.EvaluatesTo globals (.lam p cb) ∧
      ∀ j < left, ∀ (a : Term) (v : Code), a.IsLocallyClosed → v.IsClosed →
        Realizes table globals j a bind v →
        Realizes table globals j (b.instantiate [a]) (body.instantiate [.lam n er b, a])
          (cb.replace p v))

section

variable {table : Table} {globals : DefName → Option Code} {h h' left left' : Nat}
  {t u b ty ty' : Term} {n : BinderName} {er : Bool} {c c' : Code}

theorem realizes_iff :
    Realizes table globals h t ty c ↔ ∀ i < h, ∀ n er b,
      WeakHeadIn table .coherent i t (.lam n er b) → ¬ WeakHead table ty .typ →
        Acts table globals (h - i) n er b ty c := by
  rw [Realizes]
  rfl

theorem Acts.mono (hc : Acts table globals left n er b ty c) (hle : left' ≤ left) :
    Acts table globals left' n er b ty c := by
  obtain ⟨s, m, bind, body, hall, herased, hkept⟩ := hc
  refine ⟨s, m, bind, body, hall, ?_, ?_⟩
  · intro her j hj
    exact herased her j (Nat.lt_of_lt_of_le hj hle)
  · intro her
    obtain ⟨p, cb, heval, happly⟩ := hkept her
    exact ⟨p, cb, heval, fun j hj => happly j (Nat.lt_of_lt_of_le hj hle)⟩

end

namespace Realizes

variable {table : Table} {globals : DefName → Option Code} {h h' : Nat} {t u ty ty' : Term}
  {c c' : Code}

/-! ## First properties -/

theorem zero (table : Table) (globals : DefName → Option Code) (t ty : Term) (c : Code) :
    Realizes table globals 0 t ty c :=
  realizes_iff.2 fun i hi => absurd hi (Nat.not_lt_zero i)

/-- What has the universe as its type is realized by everything. -/
theorem of_typ (hty : WeakHead table ty .typ) : Realizes table globals h t ty c :=
  realizes_iff.2 fun _ _ _ _ _ _ hnot => absurd hty hnot

/-- What reduces to no function is realized by everything. -/
theorem of_no_function
    (ht : ∀ i n er b, ¬ WeakHeadIn table .coherent i t (.lam n er b)) :
    Realizes table globals h t ty c :=
  realizes_iff.2 fun i _ n er b hlam => absurd hlam (ht i n er b)

/-- A term that reduces in the way of another is realized by what realizes the other, for as many
steps as the reduction of the one takes longer than that of the other. -/
theorem of_weakHeadIn (hc : Realizes table globals h' t ty c)
    (hsteps : ∀ i < h, ∀ w, WeakHeadIn table .coherent i u w →
      ∃ i' < h', h - i ≤ h' - i' ∧ WeakHeadIn table .coherent i' t w) :
    Realizes table globals h u ty c := by
  rw [realizes_iff] at hc ⊢
  intro i hi n er b hlam hnot
  obtain ⟨i', hi', hle, hlam'⟩ := hsteps i hi _ hlam
  exact (hc i' hi' n er b hlam' hnot).mono hle

theorem mono (hc : Realizes table globals h t ty c) (hle : h' ≤ h) :
    Realizes table globals h' t ty c :=
  hc.of_weakHeadIn fun i hi _ hw =>
    ⟨i, Nat.lt_of_lt_of_le hi hle, Nat.sub_le_sub_right hle i, hw⟩

/-- Code that evaluates to the code in question does what it does. -/
theorem of_evaluatesTo (hc : Realizes table globals h t ty c') (heval : c.EvaluatesTo globals c') :
    Realizes table globals h t ty c := by
  -- the code of an erased function is that of its body too, which is realized for fewer steps
  induction h using Nat.strongRecOn generalizing t ty with
  | ind h ih =>
  rw [realizes_iff] at hc ⊢
  intro i hi n er b hlam hty
  obtain ⟨s, m, bind, body, hall, herased, hkept⟩ := hc i hi n er b hlam hty
  refine ⟨s, m, bind, body, hall, ?_, ?_⟩
  · intro her j hj a ha
    exact ih j (by omega) (herased her j hj a ha)
  · intro her
    obtain ⟨p, cb, heval', happly⟩ := hkept her
    exact ⟨p, cb, heval.trans heval', happly⟩

/-! ## Conversion -/

/-- A type may be exchanged for a convertible one. -/
theorem convert (hclosed : table.IsLocallyClosed) (hfree : table.IsVarFree)
    (hc : Realizes table globals h t ty c) (ht : t.IsLocallyClosed) (hty : ty.IsLocallyClosed)
    (hty' : ty'.IsLocallyClosed) (hconv : Convertible table ty ty') :
    Realizes table globals h t ty' c := by
  -- on the steps, for both directions at once: where results go from the one type to the other,
  -- arguments come back
  induction h using Nat.strongRecOn generalizing t ty ty' c with
  | ind h ih =>
  rw [realizes_iff] at hc ⊢
  intro i hi n er b hlam hnot
  have hnot' : ¬ WeakHead table ty .typ := fun h => hnot (hconv.weakHead_typ_iff.1 h)
  obtain ⟨s, m, bind, body, hall, herased, hkept⟩ := hc i hi n er b hlam hnot'
  obtain ⟨s', m', bind', body', hall', hbind, hbody⟩ :=
    Convertible.of_all hclosed hfree hty hty' hconv hall
  have hallClosed := hall.isLocallyClosed hclosed hty
  have hallClosed' := hall'.isLocallyClosed hclosed hty'
  have hlamClosed := hlam.weakHead.isLocallyClosed hclosed ht
  -- what is returned has convertible types
  have hresult : ∀ j, j < h → ∀ (a : Term) (d : Code), a.IsLocallyClosed →
      Realizes table globals j (b.instantiate [a]) (body.instantiate [.lam n er b, a]) d →
      Realizes table globals j (b.instantiate [a]) (body'.instantiate [.lam n er b, a]) d := by
    intro j hj a d ha hd
    exact ih j hj hd (Term.ClosedAt.instantiate_one hlamClosed ha)
      (Term.ClosedAt.instantiate_two hallClosed.2 hlamClosed ha)
      (Term.ClosedAt.instantiate_two hallClosed'.2 hlamClosed ha) (hbody _ a hlamClosed ha)
  refine ⟨s', m', bind', body', hall', ?_, ?_⟩
  · intro her j hj a ha
    exact hresult j (by omega) a c ha (herased her j hj a ha)
  · intro her
    obtain ⟨p, cb, heval, happly⟩ := hkept her
    refine ⟨p, cb, heval, fun j hj a v ha hv harg => ?_⟩
    -- the argument is one of the new type, but the code expects one of the old type
    have harg' := ih j (by omega) harg ha hallClosed'.1 hallClosed.1 hbind.symm
    exact hresult j (by omega) a _ ha (happly j hj a v ha hv harg')

/-- Annotations and locations in a term do not matter. -/
theorem of_bare_eq (hclosed : table.IsLocallyClosed) (hfree : table.IsVarFree)
    (hc : Realizes table globals h t ty c) (ht : t.IsLocallyClosed) (hu : u.IsLocallyClosed)
    (hty : ty.IsLocallyClosed) (hbare : u.bare = t.bare) :
    Realizes table globals h u ty c := by
  induction h using Nat.strongRecOn generalizing t u ty c with
  | ind h ih =>
  rw [realizes_iff] at hc ⊢
  intro i hi n er b hlam hnot
  -- the other term reduces to a function as well, the same without annotations and locations
  obtain ⟨w, hw, hwbare⟩ := hlam.of_bare_eq hbare.symm
  obtain ⟨b', rfl, hb⟩ := Term.exists_lam_of_bare hw.isWrapped hwbare
  obtain ⟨s, m, bind, body, hall, herased, hkept⟩ := hc i hi n er b' hw hnot
  have hlamClosed := hlam.weakHead.isLocallyClosed hclosed hu
  have hlamClosed' := hw.weakHead.isLocallyClosed hclosed ht
  have hallClosed := hall.isLocallyClosed hclosed hty
  -- the function stands in the type of what is returned as well
  have hresult : ∀ j, j < h → ∀ (a : Term) (d : Code), a.IsLocallyClosed →
      Realizes table globals j (b'.instantiate [a]) (body.instantiate [.lam n er b', a]) d →
      Realizes table globals j (b.instantiate [a]) (body.instantiate [.lam n er b, a]) d := by
    intro j hj a d ha hd
    have hself : (Term.lam n er b').bare = (Term.lam n er b).bare := hwbare
    have hty₁ := Term.ClosedAt.instantiate_two hallClosed.2 hlamClosed' ha
    have hty₂ := Term.ClosedAt.instantiate_two hallClosed.2 hlamClosed ha
    have hconv : Convertible table (body.instantiate [.lam n er b', a])
        (body.instantiate [.lam n er b, a]) :=
      .of_bare_eq (Term.bare_instantiate_congr rfl (by simp [hself]))
    have hb' := Term.ClosedAt.instantiate_one hlamClosed' ha
    exact ih j hj (hd.convert hclosed hfree hb' hty₁ hty₂ hconv) hb'
      (Term.ClosedAt.instantiate_one hlamClosed ha) hty₂ (Term.bare_instantiate_one hb.symm rfl)
  refine ⟨s, m, bind, body, hall, ?_, ?_⟩
  · intro her j hj a ha
    exact hresult j (by omega) a c ha (herased her j hj a ha)
  · intro her
    obtain ⟨p, cb, heval, happly⟩ := hkept her
    exact ⟨p, cb, heval, fun j hj a v ha hv harg =>
      hresult j (by omega) a _ ha (happly j hj a v ha hv harg)⟩

/-- Nor do those in a type. -/
theorem congr_bare (hclosed : table.IsLocallyClosed) (hfree : table.IsVarFree)
    (hc : Realizes table globals h t ty c) (ht : t.IsLocallyClosed) (hu : u.IsLocallyClosed)
    (hty : ty.IsLocallyClosed) (hty' : ty'.IsLocallyClosed) (hbare : u.bare = t.bare)
    (htyBare : ty'.bare = ty.bare) : Realizes table globals h u ty' c :=
  (hc.convert hclosed hfree ht hty hty' (.of_bare_eq htyBare.symm)).of_bare_eq hclosed hfree ht hu
    hty' hbare

/-! ## Terms by their forms -/

theorem ann {e annTy : Term} {done : Bool} (hc : Realizes table globals h e ty c) :
    Realizes table globals h (.ann done e annTy) ty c := by
  refine hc.of_weakHeadIn fun i hi w hw => ?_
  cases hw with
  | ann hw => exact ⟨i, hi, Nat.le_refl _, hw⟩

theorem loc {e : Term} {span : Span} (hc : Realizes table globals h e ty c) :
    Realizes table globals h (.loc span e) ty c := by
  refine hc.of_weakHeadIn fun i hi w hw => ?_
  cases hw with
  | loc hw => exact ⟨i, hi, Nat.le_refl _, hw⟩

theorem letIn {n : BinderName} {dup : Bool} {e b : Term}
    (hc : Realizes table globals h (b.instantiate [e]) ty c) :
    Realizes table globals h (.letIn n dup e b) ty c := by
  refine hc.of_weakHeadIn fun i hi w hw => ?_
  cases hw with
  | @letIn i _ _ _ _ _ hw =>
    -- the step that opens the body is one that the code need not keep up with
    exact ⟨i, by omega, by omega, hw⟩

/-- The reference to a global is realized if its body is, for one step more. -/
theorem unfold {name : DefName} {d : Definition} (hd : table.find? name = some d)
    (hcode : globals name = some c) (hc : Realizes table globals h d.body ty c) :
    Realizes table globals (h + 1) (.ref name) ty (.ref name) := by
  have heval : (Code.ref name).EvaluatesTo globals c := .step hcode
  refine (hc.of_evaluatesTo heval).of_weakHeadIn fun i hi w hw => ?_
  cases hw with
  | unknown hname =>
    rw [hd] at hname
    cases hname
  | @unfold i _ d' _ _ hd' hw =>
    rw [hd] at hd'
    cases hd'
    -- the one step more is the unfolding
    exact ⟨i, by omega, by omega, hw⟩

section Functions

variable {f a b bind body : Term} {s m n p : BinderName} {er : Bool} {cf ca cb : Code}

/-- A function whose parameter has code. -/
theorem lam_kept (hall : WeakHead table ty (.all s m bind body))
    (hb : ∀ j ≤ h, ∀ (a : Term) (v : Code), a.IsLocallyClosed → v.IsClosed →
      Realizes table globals j a bind v →
      Realizes table globals j (b.instantiate [a]) (body.instantiate [.lam n false b, a])
        (cb.replace p v)) :
    Realizes table globals h (.lam n false b) ty (.lam p cb) := by
  rw [realizes_iff]
  intro i hi n' er' b' hlam _
  cases hlam
  refine ⟨s, m, bind, body, hall, nofun, fun _ => ⟨p, cb, .refl globals _, ?_⟩⟩
  intro j hj
  exact hb j (Nat.le_of_lt hj)

/-- A function whose parameter is erased. -/
theorem lam_erased (hall : WeakHead table ty (.all s m bind body))
    (hb : ∀ j ≤ h, ∀ a : Term, a.IsLocallyClosed →
      Realizes table globals j (b.instantiate [a]) (body.instantiate [.lam n true b, a]) c) :
    Realizes table globals h (.lam n true b) ty c := by
  rw [realizes_iff]
  intro i hi n' er' b' hlam _
  cases hlam
  exact ⟨s, m, bind, body, hall, fun _ j hj => hb j (Nat.le_of_lt hj), nofun⟩

/-- An application is realized by what realizes the body of the function, once the function is
found, opened with the argument. -/
theorem app_of_beta {cr : Code} (hclosed : table.IsLocallyClosed) (hfree : table.IsVarFree)
    (hf : f.IsLocallyClosed) (ha : a.IsLocallyClosed)
    (hall : Term.IsLocallyClosed (.all s m bind body))
    (hresult : ∀ i n b, WeakHeadIn table .coherent i f (.lam n er b) → ∀ j < h - i,
      Realizes table globals j (b.instantiate [a]) (body.instantiate [.lam n er b, a]) cr) :
    Realizes table globals h (.app f a er) (body.instantiate [f, a]) cr := by
  rw [realizes_iff]
  intro i hi n er' b hlam hnot
  cases hlam with
  | @beta i j _ _ g _ n' _ _ hcontracts hfunc hbody =>
    cases hcontracts
    have hlamClosed := hfunc.weakHead.isLocallyClosed hclosed hf
    have hconv : Convertible table (body.instantiate [.lam n' er g, a])
        (body.instantiate [f, a]) :=
      .instantiate_two hclosed hfree hall.2 hlamClosed hf ha ha
        (Convertible.of_weakHead hfunc.weakHead).symm (.refl table a)
    -- the steps that are left after the function has been found
    have hr := (hresult i n' g hfunc (h - i - 1) (by omega)).convert hclosed hfree
      (Term.ClosedAt.instantiate_one hlamClosed ha)
      (Term.ClosedAt.instantiate_two hall.2 hlamClosed ha)
      (Term.ClosedAt.instantiate_two hall.2 hf ha) hconv
    exact (realizes_iff.1 hr j (by omega) n er' b hbody hnot).mono (by omega)

/-- An application that passes its argument on. -/
theorem app_kept (hclosed : table.IsLocallyClosed) (hfree : table.IsVarFree)
    (hf : f.IsLocallyClosed) (ha : a.IsLocallyClosed) (hty : ty.IsLocallyClosed)
    (hall : WeakHead table ty (.all s m bind body)) (hca : ca.IsClosed)
    (hfunc : Realizes table globals h f ty cf) (harg : Realizes table globals h a bind ca) :
    Realizes table globals h (.app f a false) (body.instantiate [f, a]) (.app cf ca) := by
  have hnot : ¬ WeakHead table ty .typ := fun htyp => by cases hall.unique htyp
  refine app_of_beta hclosed hfree hf ha (hall.isLocallyClosed hclosed hty) ?_
  intro i n b hlam j hj
  obtain ⟨s', m', bind', body', hall', -, hkept⟩ :=
    realizes_iff.1 hfunc i (by omega) n false b hlam hnot
  -- what the code acts at is the type that the application is checked with
  cases hall.unique hall'
  obtain ⟨p, cb, heval, happly⟩ := hkept rfl
  have hstep : (Code.app (.lam p cb) ca).step? globals = some (cb.replace p ca) := rfl
  exact (happly j hj a ca ha hca (harg.mono (by omega))).of_evaluatesTo
    ((heval.app ca).trans (.step hstep))

/-- An application that passes its argument as an erased one. -/
theorem app_erased (hclosed : table.IsLocallyClosed) (hfree : table.IsVarFree)
    (hf : f.IsLocallyClosed) (ha : a.IsLocallyClosed) (hty : ty.IsLocallyClosed)
    (hall : WeakHead table ty (.all s m bind body))
    (hfunc : Realizes table globals h f ty cf) :
    Realizes table globals h (.app f a true) (body.instantiate [f, a]) cf := by
  have hnot : ¬ WeakHead table ty .typ := fun htyp => by cases hall.unique htyp
  refine app_of_beta hclosed hfree hf ha (hall.isLocallyClosed hclosed hty) ?_
  intro i n b hlam j hj
  obtain ⟨s', m', bind', body', hall', herased, -⟩ :=
    realizes_iff.1 hfunc i (by omega) n true b hlam hnot
  cases hall.unique hall'
  exact herased rfl j hj a ha

end Functions

end Realizes

end SelfTypes
