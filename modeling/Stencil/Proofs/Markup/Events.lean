import Stencil.Proofs.Markup.Bindings

/-!
# The events of an element

Stores and links of an element's body ask for handlers one by one, in any order of their events. The
element's object has them by event: the events stand in the order in which they are first named, and
the handlers of each in the order of the body.
-/
namespace Stencil

namespace Element

theorem filter_events_plainProperties (scope : BlockScope) (key : Option Script.Expr)
    (name : String) (classes : List ClassClause) (attributes : List (String × Expr))
    (body : List Statement) (children : Option Script.Expr) :
    (plainProperties scope key name classes attributes body children).filter (·.1 = "events") =
      [] := by
  have hnone := lookup_plainProperties scope key name classes attributes body children
  rw [List.lookup_eq_none_iff] at hnone
  refine List.filter_eq_nil_iff.mpr fun p hp => ?_
  have hne := bne_iff_ne.mp (hnone p hp)
  simpa using hne.symm

theorem isEmpty_events (body : List Statement) :
    (Prelude.ofBody body).events.isEmpty ↔ (Contribution.ofBody 0 body).handlers = [] := by
  rw [Contribution.prelude_ofBody, List.isEmpty_iff]
  exact EventTable.grouped_eq_nil

end Element

namespace EventTable

theorem nodup_eraseDups : ∀ names : List String, names.eraseDups.Nodup
  | [] => List.nodup_nil
  | name :: names => by
    rw [List.eraseDups_cons, List.nodup_cons, List.mem_eraseDups]
    constructor
    · simp
    · exact nodup_eraseDups _
termination_by names => names.length
decreasing_by exact Nat.lt_succ_of_le (List.length_filter_le _ _)

end EventTable

/-- The object of an element has events exactly if its body asks for handlers. Each event stands
there once, in the order of their first handlers, and has all its handlers in the order of the
body. -/
theorem Statement.node_groups_handlers (scope : BlockScope) (key : Option Script.Expr)
    (position : Position) (name : String) (classes : List ClassClause)
    (attributes : List (String × Expr)) (body : List Statement) :
    let handlers := (Contribution.ofBody 0 body).handlers
    ∃ properties table,
      (Statement.element position name classes attributes body).node scope key =
        .madeWith (bodyVars body) (.object properties) ∧
      properties.filter (·.1 = "events") =
        (if handlers = [] then [] else [("events", .object table)]) ∧
      table.map (·.1) = (handlers.map (·.1)).eraseDups ∧ (table.map (·.1)).Nodup ∧
      ∀ entry ∈ table, entry.2.asHandlers = (handlers.filter (·.1 = entry.1)).map (·.2) := by
  intro handlers
  obtain ⟨table, hobject, -, htable⟩ := Element.exists_events body
  have hnames : table.map (·.1) = (handlers.map (·.1)).eraseDups := by
    have hfirst := congrArg (List.map (·.1)) htable
    rw [grouped, List.map_map, List.map_map] at hfirst
    exact hfirst.trans (List.map_id _)
  refine ⟨_, table, Element.assemble_eq .., ?_, hnames, ?_, ?_⟩
  · rw [List.filter_append, Element.filter_events_plainProperties, List.nil_append, hobject]
    by_cases hnone : handlers = []
    · rw [if_pos hnone, if_pos ((Element.isEmpty_events body).mpr hnone)]
      rfl
    · rw [if_neg hnone, if_neg (mt (Element.isEmpty_events body).mp hnone)]
      rfl
  · rw [hnames]
    exact EventTable.nodup_eraseDups _
  · intro entry hentry
    have hmem := List.mem_map_of_mem (f := fun e => (e.1, e.2.asHandlers)) hentry
    rw [htable, grouped] at hmem
    obtain ⟨event, -, heq⟩ := List.mem_map.mp hmem
    obtain ⟨rfl, hhandlers⟩ := Prod.mk.inj heq
    exact hhandlers.symm

end Stencil
