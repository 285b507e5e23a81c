/-!
# Scripts

What is to be seen of code on a page: words, functions, calls and local definitions, with brackets
only around a function or local definition that is called. The body of a function or of a local
definition goes on as far as it can. A script is read back from its tokens in one pass with a stack
of what has been opened and not closed yet. Main statements: `read_tokens`, by which the reader that
has passed the tokens of a script holds the script, and from it `tokens_injective`.
-/

namespace SelfTypes

/-- A script: code by its look. -/
inductive Script where
  /-- A name, a mark or a quoted literal. -/
  | word (w : String)
  /-- A function. -/
  | lam (name : String) (body : Script)
  /-- A call. -/
  | app (func arg : Script)
  /-- A local definition. -/
  | letIn (name : String) (expr body : Script)

namespace Script

/-! ## Tokens -/

/-- A token of a script. -/
inductive Token where
  | word (w : String)
  /-- The word that opens a local definition. -/
  | letWord
  | left
  | right
  | arrow
  | semicolon

/-- Whether the body of a script goes on as far as it can. -/
def isOpen : Script → Bool
  | lam .. | letIn .. => true
  | _ => false

/-- The tokens of a script. -/
def tokens : Script → List Token
  | word w => [.word w]
  | lam n b => .left :: .word n :: .right :: .arrow :: b.tokens
  | app f a =>
    (if f.isOpen then .left :: (f.tokens ++ [.right]) else f.tokens) ++
      .left :: (a.tokens ++ [.right])
  | letIn n e b => .letWord :: .word n :: (e.tokens ++ .semicolon :: b.tokens)

/-! ## Reading tokens -/

/-- What has been opened around the place of reading. -/
inductive Frame where
  /-- A bracket around a function, or around its parameter. -/
  | bracket
  /-- The bracket of an argument, behind the function. -/
  | argument (func : Script)
  /-- The body of a function. -/
  | body (name : String)
  /-- The value of a local definition. -/
  | value (name : String)
  /-- The body of a local definition. -/
  | rest (name : String) (expr : Script)

/-- Where a reader stands, with what has been opened, innermost first. -/
inductive Reader where
  /-- A script is to come. -/
  | expects (opened : List Frame)
  /-- A script has been read, and may be called. -/
  | holds (opened : List Frame) (s : Script)
  /-- The name of a local definition is to come. -/
  | defines (opened : List Frame)
  /-- A name in brackets has been read, and an arrow is to come. -/
  | binds (opened : List Frame) (name : String)
  /-- No script has these tokens. -/
  | stuck

/-- Closes the bodies that end where the script ends. -/
def settle : List Frame → Script → List Frame × Script
  | .body n :: opened, s => settle opened (.lam n s)
  | .rest n e :: opened, s => settle opened (.letIn n e s)
  | opened, s => (opened, s)

/-- Closes a bracket. -/
def closeBracket : List Frame × Script → Reader
  | (.bracket :: opened, .word n) => .binds opened n
  | (.bracket :: opened, f) => .holds opened f
  | (.argument f :: opened, a) => .holds opened (.app f a)
  | _ => .stuck

/-- Closes the value of a local definition. -/
def closeValue : List Frame × Script → Reader
  | (.value n :: opened, e) => .expects (.rest n e :: opened)
  | _ => .stuck

/-- Reads one token. -/
def Reader.step : Reader → Token → Reader
  | .expects opened, .word w => .holds opened (.word w)
  | .expects opened, .letWord => .defines opened
  | .expects opened, .left => .expects (.bracket :: opened)
  | .defines opened, .word n => .expects (.value n :: opened)
  | .binds opened n, .arrow => .expects (.body n :: opened)
  | .holds opened f, .left => .expects (.argument f :: opened)
  | .holds opened s, .right => closeBracket (settle opened s)
  | .holds opened s, .semicolon => closeValue (settle opened s)
  -- no other token may come in these states
  | _, _ => .stuck

/-- Reads tokens. -/
def Reader.read (r : Reader) (ts : List Token) : Reader :=
  ts.foldl step r

@[simp] theorem Reader.read_nil (r : Reader) : r.read [] = r := rfl

@[simp] theorem Reader.read_cons (r : Reader) (t : Token) (ts : List Token) :
    r.read (t :: ts) = (r.step t).read ts := rfl

/-! ## Scripts are read back -/

/-- A token that no body goes on beyond. -/
def Token.EndsBody (t : Token) : Prop :=
  t = .right ∨ t = .semicolon

/-- A body that ends is closed together with what it is the body of. -/
theorem step_body {t : Token} (ht : t.EndsBody) (opened : List Frame) (n : String) (b : Script) :
    (Reader.holds (.body n :: opened) b).step t = (Reader.holds opened (.lam n b)).step t := by
  rcases ht with rfl | rfl <;> rfl

theorem step_rest {t : Token} (ht : t.EndsBody) (opened : List Frame) (n : String) (e b : Script) :
    (Reader.holds (.rest n e :: opened) b).step t =
      (Reader.holds opened (.letIn n e b)).step t := by
  rcases ht with rfl | rfl <;> rfl

/-- The bracket around a function that is called is no bracket around a parameter. -/
theorem closeBracket_of_isOpen {f : Script} (hf : f.isOpen = true) (opened : List Frame) :
    closeBracket (.bracket :: opened, f) = .holds opened f := by
  cases f with
  | lam | letIn => rfl
  | word | app => cases hf

/-- A reader that expects a script and passes its tokens holds it. If its body goes on as far as it
can, this is so where the body ends. -/
theorem read_tokens (s : Script) :
    (s.isOpen = false → ∀ opened ts,
      (Reader.expects opened).read (s.tokens ++ ts) = (Reader.holds opened s).read ts) ∧
    ∀ opened t ts, t.EndsBody →
      (Reader.expects opened).read (s.tokens ++ t :: ts) =
        (Reader.holds opened s).read (t :: ts) := by
  induction s with
  | word w => exact ⟨fun _ _ _ => rfl, fun _ _ _ _ => rfl⟩
  | lam n b ih =>
    -- a function has an open end: its body is settled once the closing token is read
    refine ⟨fun h => (by cases h), fun opened t ts ht => ?_⟩
    calc
      (Reader.expects opened).read ((lam n b).tokens ++ t :: ts)
        = (Reader.expects (.body n :: opened)).read (b.tokens ++ t :: ts) := rfl
      _ = (Reader.holds (.body n :: opened) b).read (t :: ts) := ih.2 _ t ts ht
      _ = (Reader.holds opened (.lam n b)).read (t :: ts) := by
        rw [Reader.read_cons, step_body ht, Reader.read_cons]
  | app f a ihf iha =>
    -- a call is closed by its last bracket, whatever follows
    have harg : ∀ opened ts, (Reader.holds opened f).read (.left :: (a.tokens ++ [.right]) ++ ts) =
        (Reader.holds opened (.app f a)).read ts := by
      intro opened ts
      have h := iha.2 (.argument f :: opened) .right ts (.inl rfl)
      rw [List.cons_append, List.append_assoc, Reader.read_cons]
      exact h
    have hcall : ∀ opened ts, (Reader.expects opened).read ((app f a).tokens ++ ts) =
        (Reader.holds opened (.app f a)).read ts := by
      intro opened ts
      rw [tokens, List.append_assoc]
      -- a function that has an open end stands in brackets
      split
      · rename_i hf
        have h := ihf.2 (.bracket :: opened) .right (.left :: (a.tokens ++ [.right]) ++ ts)
          (.inl rfl)
        have hclose : (Reader.holds (.bracket :: opened) f).step .right = .holds opened f :=
          closeBracket_of_isOpen hf opened
        rw [Reader.read_cons, hclose, harg] at h
        rw [List.cons_append, List.append_assoc]
        exact h
      · rename_i hf
        rw [ihf.1 (Bool.not_eq_true _ ▸ hf), harg]
    exact ⟨fun _ => hcall, fun opened t ts _ => hcall opened (t :: ts)⟩
  | letIn n e b ihe ihb =>
    refine ⟨fun h => (by cases h), fun opened t ts ht => ?_⟩
    calc
      (Reader.expects opened).read ((letIn n e b).tokens ++ t :: ts)
        -- the value ends at the semicolon, and the body where the whole ends
        = (Reader.expects (.value n :: opened)).read
            (e.tokens ++ .semicolon :: (b.tokens ++ t :: ts)) := by
        rw [tokens, List.cons_append, List.cons_append, List.append_assoc]
        rfl
      _ = (Reader.holds (.value n :: opened) e).read (.semicolon :: (b.tokens ++ t :: ts)) :=
        ihe.2 _ .semicolon _ (.inr rfl)
      _ = (Reader.expects (.rest n e :: opened)).read (b.tokens ++ t :: ts) := rfl
      _ = (Reader.holds (.rest n e :: opened) b).read (t :: ts) := ihb.2 _ t ts ht
      _ = (Reader.holds opened (.letIn n e b)).read (t :: ts) := by
        rw [Reader.read_cons, step_rest ht, Reader.read_cons]

/-- Different scripts have different tokens. -/
theorem tokens_injective {s s' : Script} (h : s.tokens = s'.tokens) : s = s' := by
  -- as the argument of a call, a script is closed by a bracket
  have hread : ∀ s : Script, (Reader.expects [.argument s']).read (s.tokens ++ [.right]) =
      .holds [] (.app s' s) := fun s => s.read_tokens.2 [.argument s'] .right [] (.inl rfl)
  have heq := (hread s).symm.trans ((congrArg (fun ts => (Reader.expects [.argument s']).read
    (ts ++ [.right])) h).trans (hread s'))
  injection heq with _ happ
  injection happ

end Script

end SelfTypes
