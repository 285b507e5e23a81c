import SelfTypes.Proofs.Dependency.Precedence

/-!
# The dependency order lists what can be reached

A name that was visited before is not searched again, neither on a cycle nor where two definitions
share a dependency, so the searches that are cut off have to be made up for elsewhere. They are:
what a listed definition refers to is listed as well, and with it all that a chain of references
leads to from the entry. The search ends on every table, as each body is searched once at most; this
is what `explore` is defined by. Main statement: `order_lists_reachable`.
-/

namespace SelfTypes.Table

variable {t : Table} {entry n m : DefName}

/-- A defined name that references lead to from the entry is listed, unless it is the entry. -/
theorem mem_order_append_of_reaches (hentry : entry ∈ t.names) (h : t.Reaches entry n)
    (hn : n ∈ t.names) : n ∈ t.order entry ++ [entry] := by
  induction h with
  | refl => simp
  | tail _ href ih => exact (order_settled hentry (ih href.mem_names) hn href).1

/-- The definitions that the entry depends on are listed once each, and they are those other than
the entry that a chain of references leads to, from body to body of defined names. -/
theorem order_lists_reachable (hentry : entry ∈ t.names) :
    (t.order entry).Nodup ∧
      ∀ n, n ∈ t.order entry ↔
        n ≠ entry ∧ n ∈ t.names ∧ Relation.TransGen t.Leads entry n := by
  have hnodup := t.nodup_order_append entry
  rw [List.nodup_append] at hnodup
  obtain ⟨hnodup, -, hdisjoint⟩ := hnodup
  refine ⟨hnodup, fun n => ⟨fun hn => ?_, ?_⟩⟩
  · have hne : n ≠ entry := hdisjoint n hn entry List.mem_cons_self
    obtain ⟨hreaches, hdefined⟩ := reaches_of_mem_order hn
    refine ⟨hne, hdefined, ?_⟩
    rw [leads_eq_refers]
    -- there is a reference at least, as the entry itself is not listed
    exact (Relation.reflTransGen_iff_eq_or_transGen.1 hreaches).resolve_left hne
  · rintro ⟨hne, hdefined, hleads⟩
    rw [leads_eq_refers] at hleads
    have hmem := mem_order_append_of_reaches hentry hleads.to_reflTransGen hdefined
    exact (List.mem_append.1 hmem).resolve_right (by simpa using hne)

/-- A cycle with a shared definition below it. A name under a self type and one in the type of an
annotation are no dependencies, and neither is one without a definition. -/
def sharing : Table :=
  .ofList
    [⟨"main", .typ, .app (.ref "left") (.ann false (.ref "right") (.ref "hidden")) false⟩,
     ⟨"left", .typ, .lam "x" false (.app (.ref "shared") (.ref "main") false)⟩,
     ⟨"right", .typ, .letIn "y" true (.ref "shared") (.app (.ref "left") (.ref "nowhere") false)⟩,
     ⟨"shared", .typ, .all "s" "x" (.ref "hidden") (.ref "hidden")⟩,
     ⟨"hidden", .typ, .ref "main"⟩]

/-- The shared definition is listed once, and nothing reaches the hidden one. -/
theorem sharing_order :
    "main" ∈ sharing.names ∧ sharing.order "main" = ["shared", "left", "right"] ∧
      Relation.TransGen sharing.Leads "main" "shared" ∧
      ¬ Relation.TransGen sharing.Leads "main" "hidden" := by
  have hentry : "main" ∈ sharing.names := by decide
  have horder : sharing.order "main" = ["shared", "left", "right"] := by cbv
  obtain ⟨-, hmem⟩ := order_lists_reachable hentry
  refine ⟨hentry, horder, ?_, ?_⟩
  · exact ((hmem "shared").1 (by rw [horder]; decide)).2.2
  · intro hleads
    have hhidden := (hmem "hidden").2 ⟨by decide, by decide, hleads⟩
    rw [horder] at hhidden
    revert hhidden
    decide

end SelfTypes.Table
