import Mathlib.Data.List.Nodup
import SelfTypes.Identifier

/-!
# Issued identifiers

A group supply hands out supplies, and identifiers are drawn from these in any order, also while
further supplies are handed out. What a run of such requests leads to is told by how often each of
them was made (`Issuance.Served`), and every request keeps it so. Main statement:
`issued_identifiers_distinct`.
-/

namespace SelfTypes

/-! ## Requests -/

/-- A request to a group supply, or to one of the supplies that it has handed out. -/
inductive Request where
  /-- A supply over the next group. -/
  | supply
  /-- The next identifier of the supply that `place` others were handed out before. -/
  | identifier (place : Nat)
  deriving DecidableEq

namespace Request

/-- Identifiers are asked only of supplies that have been handed out by then, `handed` of which
there are before the first request. -/
def InOrder : (handed : Nat) → List Request → Prop
  | _, [] => True
  | handed, supply :: rest => InOrder (handed + 1) rest
  | handed, identifier place :: rest => place < handed ∧ InOrder handed rest

/-- How many supplies were asked for. -/
def supplyCount (past : List Request) : Nat :=
  past.count supply

/-- How many identifiers were asked of the supply at a place. -/
def identifierCount (place : Nat) (past : List Request) : Nat :=
  past.count (identifier place)

section Count

variable (past : List Request) (place other : Nat)

@[simp] theorem supplyCount_append_supply :
    supplyCount (past ++ [supply]) = supplyCount past + 1 := by
  simp [supplyCount]

@[simp] theorem supplyCount_append_identifier :
    supplyCount (past ++ [identifier place]) = supplyCount past := by
  simp [supplyCount]

@[simp] theorem identifierCount_append_supply :
    identifierCount place (past ++ [supply]) = identifierCount place past := by
  simp [identifierCount]

theorem identifierCount_append_identifier :
    identifierCount place (past ++ [identifier other]) =
      identifierCount place past + if other = place then 1 else 0 := by
  simp [identifierCount, List.count_singleton]

end Count

end Request

/-! ## Runs -/

/-- A group supply with the supplies that it has handed out and the identifiers that these have
issued, both in the order in which they came. -/
structure Issuance where
  groups : GroupSupply := {}
  supplies : List Supply := []
  issued : List VarId := []

namespace Issuance

open Request (InOrder supplyCount identifierCount)

/-- The state after a request, if the supply that is asked is there. -/
def serve (s : Issuance) : Request → Option Issuance
  | .supply =>
    let (supply, groups) := s.groups.issue
    some { s with groups, supplies := s.supplies ++ [supply] }
  | .identifier place => do
    let (id, supply) := (← s.supplies[place]?).issue
    return { s with supplies := s.supplies.set place supply, issued := s.issued ++ [id] }

/-- The state after requests to a new group supply, if each of them is served. -/
def run (requests : List Request) : Option Issuance :=
  requests.foldlM serve {}

/-- The state that the given requests lead to: the supply at each place is the one of that group,
and has issued an identifier for each request made to it, in the order of their indices. -/
structure Served (past : List Request) (s : Issuance) : Prop where
  groups : s.groups.next = supplyCount past
  supplies : s.supplies =
    (List.range (supplyCount past)).map fun g => ⟨g, identifierCount g past⟩
  issued : ∀ g, s.issued.filter (·.group = g) =
    (List.range (identifierCount g past)).map (VarId.mk g)
  /-- A supply that is yet to be handed out has not been asked for an identifier. -/
  unasked : ∀ g, supplyCount past ≤ g → identifierCount g past = 0

namespace Served

variable {past : List Request} {s : Issuance}

theorem start : Served [] {} where
  groups := rfl
  supplies := rfl
  issued _ := rfl
  unasked _ _ := rfl

theorem getElem?_supplies (h : Served past s) {place : Nat} (hplace : place < supplyCount past) :
    s.supplies[place]? = some ⟨place, identifierCount place past⟩ := by
  rw [h.supplies, List.getElem?_map, List.getElem?_range hplace, Option.map_some]

/-- A new supply is over a group of which no identifier has been issued. -/
theorem serve_supply (h : Served past s) :
    ∃ s', s.serve .supply = some s' ∧ Served (past ++ [.supply]) s' := by
  -- the group that is issued next is the one that has not been asked for an identifier yet
  have hnew : s.groups.issue.1 = ⟨supplyCount past, identifierCount (supplyCount past) past⟩ := by
    rw [GroupSupply.issue_fst, h.groups, h.unasked _ (Nat.le_refl _)]
  refine ⟨{ s with groups := s.groups.issue.2, supplies := s.supplies ++ [s.groups.issue.1] }, rfl,
    ?_, ?_, ?_, ?_⟩
  · simp only [GroupSupply.issue_snd, h.groups, Request.supplyCount_append_supply]
  · simp only [hnew, h.supplies, Request.supplyCount_append_supply,
      Request.identifierCount_append_supply, List.range_succ, List.map_append, List.map_singleton]
  · intro g
    rw [Request.identifierCount_append_supply]
    exact h.issued g
  · intro g hg
    rw [Request.supplyCount_append_supply] at hg
    rw [Request.identifierCount_append_supply]
    exact h.unasked g (Nat.le_of_succ_le hg)

/-- The supply at a place issues the identifier whose index counts the requests made to it before,
and no other supply is touched. -/
theorem serve_identifier (h : Served past s) {place : Nat} (hplace : place < supplyCount past) :
    ∃ s', s.serve (.identifier place) = some s' ∧ Served (past ++ [.identifier place]) s' := by
  -- of the supplies one is counted up, and the others stay
  refine ⟨{ s with
    supplies := s.supplies.set place ⟨place, identifierCount place past + 1⟩
    issued := s.issued ++ [⟨place, identifierCount place past⟩] }, ?_, ?_, ?_, ?_, ?_⟩
  · rw [serve, h.getElem?_supplies hplace]
    rfl
  · rw [Request.supplyCount_append_identifier]
    exact h.groups
  · -- the counter at the place is the only one that moves
    simp only [h.supplies, Request.supplyCount_append_identifier]
    refine List.ext_getElem (by simp) fun g hg _ => ?_
    simp only [List.getElem_set, List.getElem_map, List.getElem_range,
      Request.identifierCount_append_identifier]
    split
    · rename_i heq
      rw [heq]
    · rfl
  · intro g
    -- the new identifier belongs to the group at the place, and the other groups keep theirs
    rw [List.filter_append, h.issued g, Request.identifierCount_append_identifier]
    by_cases heq : place = g
    · subst heq
      simp [List.range_succ]
    · simp [heq]
  -- a group that is not issued yet is not the one that was asked
  · intro g hg
    rw [Request.supplyCount_append_identifier] at hg
    have hne : place ≠ g := Nat.ne_of_lt (Nat.lt_of_lt_of_le hplace hg)
    rw [Request.identifierCount_append_identifier, if_neg hne]
    exact h.unasked g hg

/-- Requests in order are all served. -/
theorem exists_foldlM (h : Served past s) {requests : List Request}
    (horder : InOrder (supplyCount past) requests) :
    ∃ s', requests.foldlM serve s = some s' ∧ Served (past ++ requests) s' := by
  induction requests generalizing past s with
  | nil => exact ⟨s, rfl, by rwa [List.append_nil]⟩
  | cons request rest ih =>
    -- one request goes from the requests to come to those that were made
    have hstep : ∃ s', s.serve request = some s' ∧ Served (past ++ [request]) s' ∧
        InOrder (supplyCount (past ++ [request])) rest := by
      cases request with
      | supply =>
        obtain ⟨s', hserve, hs'⟩ := h.serve_supply
        exact ⟨s', hserve, hs', by rwa [Request.supplyCount_append_supply]⟩
      | identifier place =>
        obtain ⟨s', hserve, hs'⟩ := h.serve_identifier horder.1
        exact ⟨s', hserve, hs', by rw [Request.supplyCount_append_identifier]; exact horder.2⟩
    obtain ⟨s₁, hserve, hs₁, hrest⟩ := hstep
    obtain ⟨s', hrun, hs'⟩ := ih hs₁ hrest
    refine ⟨s', ?_, ?_⟩
    · rw [List.foldlM_cons, hserve]
      exact hrun
    · rwa [← List.append_cons] at hs'

/-- Identifiers of one group differ in their indices. -/
theorem nodup_issued (h : Served past s) : s.issued.Nodup := by
  -- an identifier is issued as often as it is among those of its group
  refine List.nodup_iff_count_le_one.2 fun id => ?_
  have hgroup : (s.issued.filter (·.group = id.group)).Nodup := by
    rw [h.issued]
    exact List.nodup_range.map fun i j heq => (VarId.mk.inj heq).2
  calc
    s.issued.count id = (s.issued.filter (·.group = id.group)).count id :=
      -- in its group an identifier is issued once, since the indices count up
      (List.count_filter (by simp)).symm
    _ ≤ 1 := List.nodup_iff_count_le_one.1 hgroup id

end Served

/-- Requests that are in order are all served, whichever way those to the group supply and those to
the supplies it hands out follow one another. No two of the identifiers that are issued are the
same, and those of a group, as many as were asked of its supply, have the indices from zero on, in
the order in which they were issued. The counters are numbers, which do not start over. -/
theorem issued_identifiers_distinct {requests : List Request} (h : InOrder 0 requests) :
    ∃ s, run requests = some s ∧ s.issued.Nodup ∧
      ∀ g, s.issued.filter (·.group = g) =
        (List.range (identifierCount g requests)).map (VarId.mk g) := by
  obtain ⟨s, hrun, hserved⟩ := Served.start.exists_foldlM h
  exact ⟨s, hrun, hserved.nodup_issued, hserved.issued⟩

/-- Two supplies that are asked in turn, the second of which is handed out between requests to the
first. -/
def alternatingRequests : List Request :=
  [.supply, .identifier 0, .supply, .identifier 1, .identifier 0, .identifier 1, .identifier 0]

theorem alternatingRequests_issued :
    InOrder 0 alternatingRequests ∧
    ∃ s, run alternatingRequests = some s ∧
      s.issued = [⟨0, 0⟩, ⟨1, 0⟩, ⟨0, 1⟩, ⟨1, 1⟩, ⟨0, 2⟩] ∧ s.issued.Nodup ∧
      s.issued.filter (·.group = 0) = [⟨0, 0⟩, ⟨0, 1⟩, ⟨0, 2⟩] := by
  have horder : InOrder 0 alternatingRequests := by simp [alternatingRequests, InOrder]
  obtain ⟨s, hrun, hnodup, hindices⟩ := issued_identifiers_distinct horder
  have hstate : run alternatingRequests = some
    ⟨⟨2⟩, [⟨0, 3⟩, ⟨1, 2⟩], [⟨0, 0⟩, ⟨1, 0⟩, ⟨0, 1⟩, ⟨1, 1⟩, ⟨0, 2⟩]⟩ := rfl
  refine ⟨horder, s, hrun, ?_, hnodup, hindices 0⟩
  cases hstate.symm.trans hrun
  rfl

end Issuance

end SelfTypes
