import Mathlib.Data.List.Basic
import Stencil.Proofs.Markup.Meaning
import Stencil.Proofs.Markup.Placement

/-!
# What bindings contribute to their element

A prelude is put together from one contribution for each binding of a body: variables, stores and
handlers in the order of the source. Variables are counted through the whole body, because the
number of a variable is part of the names that are made up.
-/
namespace Stencil

open List

/-- The variable for the target of a link, where `n` variables stand before it. -/
def streamName (n : Nat) : String := s!"_stream_{n}"

theorem toList_numbered (front : String) (n : Nat) :
    (front ++ toString n).toList = front.toList ++ Nat.toDigits 10 n := by
  rw [String.toList_append]
  exact congrArg (_ ++ ·) String.toList_ofList

theorem streamName_toList (n : Nat) :
    (streamName n).toList = "_stream_".toList ++ Nat.toDigits 10 n := toList_numbered "_stream_" n

variable {m n : Nat}

theorem toDigits_injective (h : Nat.toDigits 10 m = Nat.toDigits 10 n) : m = n :=
  calc m = Nat.ofDigitChars 10 (Nat.toDigits 10 m) 0 :=
        (Nat.ofDigitChars_toDigits (by decide) (by decide)).symm
    _ = Nat.ofDigitChars 10 (Nat.toDigits 10 n) 0 := by rw [h]
    _ = n := Nat.ofDigitChars_toDigits (by decide) (by decide)

/-- Names that are made up from numbers differ. -/
theorem numbered_injective (front : String) (h : front ++ toString m = front ++ toString n) :
    m = n := by
  have htext := congrArg String.toList h
  rw [toList_numbered, toList_numbered] at htext
  exact toDigits_injective (append_cancel_left htext)

theorem streamName_injective (h : streamName m = streamName n) : m = n :=
  numbered_injective "_stream_" h

theorem isStreamName_streamName (n : Nat) : isStreamName (streamName n) := by
  have hdigits : (Nat.toDigits 10 n).all Text.isDigit := by
    refine all_eq_true.mpr fun c hc => ?_
    exact Nat.isDigit_of_mem_toDigits (by decide) (by decide) hc
  have hne : Nat.toDigits 10 n ≠ [] := Nat.toDigits_ne_nil
  simp only [isStreamName, streamName_toList]
  generalize Nat.toDigits 10 n = digits at hdigits hne
  cases digits with
  | nil => exact absurd rfl hne
  | cons c cs => simpa using hdigits

namespace EventTable

variable {α : Type}

/-- The values of the first name come first, then the others without it. -/
theorem grouped_cons (name : String) (a : α) (pairs : List (String × α)) :
    grouped ((name, a) :: pairs) =
      (name, a :: (pairs.filter (·.1 = name)).map (·.2)) ::
        grouped (pairs.filter (·.1 ≠ name)) := by
  have hnames : ((pairs.map (·.1)).filter fun n => !n == name) =
      (pairs.filter (·.1 ≠ name)).map (·.1) := by
    rw [filter_map]
    refine congrArg _ (filter_congr fun p _ => ?_)
    by_cases hp : p.1 = name <;> simp [hp]
  rw [grouped, map_cons, eraseDups_cons, map_cons, hnames, grouped]
  congr 1
  · simp
  · refine map_congr_left fun n hn => ?_
    have hne : n ≠ name := by
      obtain ⟨p, hp, rfl⟩ := mem_map.mp (mem_eraseDups.mp hn)
      simpa using (mem_filter.mp hp).2
    have hfilter : ((name, a) :: pairs).filter (·.1 = n) =
        (pairs.filter (·.1 ≠ name)).filter (·.1 = n) := by
      rw [filter_cons_of_neg (by simpa using hne.symm), filter_filter]
      refine filter_congr fun p _ => ?_
      by_cases hp : p.1 = n
      · simp [hp, hne]
      · simp [hp]
    rw [hfilter]

theorem grouped_eq_nil {pairs : List (String × α)} : grouped pairs = [] ↔ pairs = [] := by
  cases pairs with
  | nil => exact ⟨fun _ => rfl, fun _ => rfl⟩
  | cons p pairs =>
    rw [grouped_cons]
    simp

theorem grouped_map {β : Type} (f : α → β) (pairs : List (String × α)) :
    grouped (pairs.map fun p => (p.1, f p.2)) =
      (grouped pairs).map fun g => (g.1, g.2.map f) := by
  have hnames : (pairs.map fun p => (p.1, f p.2)).map (·.1) = pairs.map (·.1) := by
    rw [map_map]
    rfl
  rw [grouped, grouped, hnames, map_map]
  refine map_congr_left fun n _ => ?_
  rw [filter_map, map_map]
  simp [Function.comp_def]

/-- One more handler at the end. -/
theorem add_grouped (event : String) (handler : Script.Expr) :
    ∀ pairs : List (String × Script.Expr),
      add event handler (grouped pairs) = grouped (pairs ++ [(event, handler)])
  | [] => by
    rw [nil_append, grouped_cons]
    rfl
  | (name, h) :: pairs => by
    have hsplit : (name, h) :: pairs ++ [(event, handler)] =
        (name, h) :: (pairs ++ [(event, handler)]) := rfl
    rw [hsplit, grouped_cons, grouped_cons, add, filter_append, filter_append, map_append]
    by_cases hname : name = event
    · subst hname
      simp
    · have hne : event ≠ name := Ne.symm hname
      have ih := add_grouped event handler (pairs.filter (·.1 ≠ name))
      rw [if_neg hname, ih]
      simp [hne]
termination_by pairs => pairs.length
decreasing_by exact Nat.lt_succ_of_le (length_filter_le _ _)

end EventTable

/-- The handler of an event for a stream: events are replaced by a value first, if there is one,
and then filtered. -/
def streamHandler (stream : Script.Expr) (filter replacement : Option Expr) : Script.Expr :=
  let onEvent (x : Expr) : Script.Expr := .function "" [("ev", none)] [.ret x.lower]
  let mapped := replacement.elim stream fun x => .call (.attribute stream "map") [onEvent x]
  let filtered := filter.elim mapped fun x => .call (.attribute mapped "filter") [onEvent x]
  .attribute filtered "handle_event"

theorem eventHandler_eq (stream : Script.Expr) (filter replacement : Option Expr) :
    eventHandler stream filter replacement = streamHandler stream filter replacement := by
  cases filter <;> cases replacement <;> rfl

/-- Variables that are set before an element is built, stores to keep and handlers by event. -/
structure Contribution where
  vars : List (String × Script.Expr) := []
  stores : List (String × Script.Expr) := []
  handlers : List (String × Script.Expr) := []

namespace Contribution

instance : Append Contribution :=
  ⟨fun c d => ⟨c.vars ++ d.vars, c.stores ++ d.stores, c.handlers ++ d.handlers⟩⟩

theorem append_def (c d : Contribution) :
    c ++ d = ⟨c.vars ++ d.vars, c.stores ++ d.stores, c.handlers ++ d.handlers⟩ := rfl

@[simp] theorem vars_append (c d : Contribution) : (c ++ d).vars = c.vars ++ d.vars := rfl

@[simp] theorem stores_append (c d : Contribution) : (c ++ d).stores = c.stores ++ d.stores := rfl

@[simp] theorem handlers_append (c d : Contribution) :
    (c ++ d).handlers = c.handlers ++ d.handlers := rfl

theorem append_assoc (c d e : Contribution) : c ++ d ++ e = c ++ (d ++ e) := by
  simp only [append_def, List.append_assoc]

variable (c : Contribution)

theorem append_empty : c ++ {} = c := by
  simp only [append_def, append_nil]

theorem empty_append : {} ++ c = c := rfl

/-- A link of several events looks its target up once. Each event has the name that its entry gives
it, or else that of the member. -/
def ofLink (n : Nat) : Link → Contribution
  | .single event filter target =>
    { handlers := [(event, streamHandler target.target.lower filter target.value)] }
  | .multi entries target =>
    { vars := [(streamName n, target.target.lower)]
      handlers := entries.map fun e =>
        (e.renamed.getD e.member,
          streamHandler (.attribute (.name (streamName n)) e.member) e.filter target.value) }

def ofLinks (n : Nat) : List Link → Contribution
  | [] => {}
  | link :: links => ofLink n link ++ ofLinks (n + (ofLink n link).vars.length) links

def ofStore (name : String) (value : Script.Expr) : Contribution :=
  let old : Script.Expr := .name "old_node"
  let store : Script.Expr := .name name
  let owner : Script.Expr := .attribute store "owner_destroyed"
  { vars := [(name, .or (.and old (.attribute old ("store_" ++ name))) value)]
    stores := [("store_" ++ name, store)]
    handlers := [("$destroyed",
      .ternary owner (.attribute owner "handle_event") (.function "" [] []))] }

def ofStatement (n : Nat) : Statement → Contribution
  | .binding _ name value => { vars := [(name, value.lower)] }
  | .store _ name value => ofStore name value.lower
  | .link _ links => ofLinks n links
  | _ => {}

/-- What a body contributes, where `n` variables stand before it. -/
def ofBody (n : Nat) : List Statement → Contribution
  | [] => {}
  | s :: rest => ofStatement n s ++ ofBody (n + (ofStatement n s).vars.length) rest

def toPrelude (c : Contribution) : Prelude :=
  ⟨c.vars.map fun v => .var v.1 v.2, c.stores, grouped c.handlers⟩

theorem handle_toPrelude (event : String) (handler : Script.Expr) :
    c.toPrelude.handle event handler = (c ++ { handlers := [(event, handler)] }).toPrelude := by
  simp only [toPrelude, Prelude.handle, EventTable.add_grouped, append_def, append_nil]

theorem bind_toPrelude (name : String) (value : Script.Expr) :
    c.toPrelude.bind name value = (c ++ { vars := [(name, value)] }).toPrelude := by
  simp only [toPrelude, Prelude.bind, append_def, append_nil, map_append, map_cons, map_nil]

theorem keep_toPrelude (store : String × Script.Expr) :
    { c.toPrelude with stores := c.toPrelude.stores ++ [store] } =
      (c ++ { stores := [store] }).toPrelude := by
  simp only [toPrelude, append_def, append_nil]

theorem foldl_handle_toPrelude {α : Type} (event : α → String) (handler : α → Script.Expr)
    (entries : List α) (c : Contribution) :
    entries.foldl (fun p e => p.handle (event e) (handler e)) c.toPrelude =
      (c ++ { handlers := entries.map fun e => (event e, handler e) }).toPrelude := by
  induction entries generalizing c with
  | nil => rw [map_nil, append_empty, foldl_nil]
  | cons e entries ih =>
    rw [foldl_cons, handle_toPrelude, ih, append_assoc]
    rfl

theorem addLink_toPrelude (link : Link) :
    c.toPrelude.addLink link = (c ++ ofLink c.vars.length link).toPrelude := by
  cases link with
  | single event filter target =>
    rw [Prelude.addLink, eventHandler_eq]
    exact handle_toPrelude c event _
  | multi entries target =>
    have hcount : c.toPrelude.statements.length = c.vars.length := length_map _
    simp only [Prelude.addLink, eventHandler_eq]
    rw [hcount, bind_toPrelude, foldl_handle_toPrelude, append_assoc]
    rfl

theorem foldl_addLink_toPrelude (links : List Link) (c : Contribution) :
    links.foldl Prelude.addLink c.toPrelude = (c ++ ofLinks c.vars.length links).toPrelude := by
  induction links generalizing c with
  | nil => rw [ofLinks, append_empty, foldl_nil]
  | cons link links ih =>
    rw [foldl_cons, addLink_toPrelude, ih, append_assoc, vars_append, length_append]
    rfl

theorem add_toPrelude (s : Statement) :
    c.toPrelude.add s = (c ++ ofStatement c.vars.length s).toPrelude := by
  cases s with
  | binding _ name value => exact bind_toPrelude c name _
  | store _ name value =>
    rw [Prelude.add, Prelude.addStore, bind_toPrelude, keep_toPrelude, handle_toPrelude,
      append_assoc, append_assoc]
    rfl
  | link _ links => exact foldl_addLink_toPrelude links c
  | element | text | output | choice | loop => exact congrArg toPrelude (append_empty c).symm

theorem foldl_add_toPrelude (body : List Statement) (c : Contribution) :
    body.foldl Prelude.add c.toPrelude = (c ++ ofBody c.vars.length body).toPrelude := by
  induction body generalizing c with
  | nil => rw [ofBody, append_empty, foldl_nil]
  | cons s rest ih =>
    rw [foldl_cons, add_toPrelude, ih, append_assoc, vars_append, length_append]
    rfl

/-- A prelude holds what the statements of the body contribute. -/
theorem prelude_ofBody (body : List Statement) : Prelude.ofBody body = (ofBody 0 body).toPrelude :=
  foldl_add_toPrelude body {}

variable {n : Nat} {links : List Link} {d : String} {body : List Statement}

/-- Links make up names with consecutive numbers. -/
theorem ofLinks_vars (hd : d ∈ (ofLinks n links).vars.map (·.1)) :
    ∃ m, n ≤ m ∧ m < n + (ofLinks n links).vars.length ∧ d = streamName m := by
  induction links generalizing n with
  | nil => cases hd
  | cons link links ih =>
    rw [ofLinks, vars_append, map_append] at hd
    rw [ofLinks, vars_append, length_append]
    rcases mem_append.mp hd with hd | hd
    · cases link with
      | single event filter target => cases hd
      | multi entries target =>
        refine ⟨n, Nat.le_refl n, ?_, mem_singleton.mp hd⟩
        change n < n + (1 + _)
        omega
    · obtain ⟨m, hlow, hhigh, rfl⟩ := ih hd
      exact ⟨m, by omega, by omega, rfl⟩

/-- The variables of a body are its own bindings, or made up for links. -/
theorem ofBody_vars {place : Place} (hplaced : Statement.allPlaced place body)
    (hd : d ∈ (ofBody n body).vars.map (·.1)) :
    d ∈ Statement.bodyBinders body ∨ (∃ m, n ≤ m ∧ d = streamName m) ∧ place = .element := by
  induction body generalizing n with
  | nil => cases hd
  | cons s rest ih =>
    obtain ⟨hs, hrest⟩ := Bool.and_eq_true_iff.mp hplaced
    rw [ofBody, vars_append, map_append] at hd
    rw [Statement.bodyBinders]
    rcases mem_append.mp hd with hd | hd
    · cases s with
      | binding | store => exact .inl (mem_append_left _ hd)
      | link _ links =>
        obtain ⟨m, hlow, _, rfl⟩ := ofLinks_vars hd
        exact .inr ⟨⟨m, hlow, rfl⟩, of_decide_eq_true hs⟩
      | _ => cases hd
    · rcases ih hrest hd with h | ⟨⟨m, hlow, rfl⟩, helement⟩
      · exact .inl (mem_append_right _ h)
      · exact .inr ⟨⟨m, by omega, rfl⟩, helement⟩

theorem ofLinks_stores (n : Nat) (links : List Link) : (ofLinks n links).stores = [] := by
  induction links generalizing n with
  | nil => rfl
  | cons link links ih =>
    rw [ofLinks, stores_append, ih, append_nil]
    cases link <;> rfl

theorem ofLinks_vars_eq_nil : (ofLinks n links).vars = [] ↔ links.any Link.isMulti = false := by
  induction links generalizing n with
  | nil => exact ⟨fun _ => rfl, fun _ => rfl⟩
  | cons link links ih =>
    rw [ofLinks, vars_append, append_eq_nil_iff, any_cons, Bool.or_eq_false_iff, ih]
    cases link with
    | single event filter target => exact and_congr_left' ⟨fun _ => rfl, fun _ => rfl⟩
    | multi entries target =>
      refine and_congr_left' (iff_of_false (cons_ne_nil _ _) ?_)
      exact Bool.noConfusion

/-- Elements are functions of old nodes exactly if their bodies declare variables. -/
theorem ofBody_vars_eq_nil : (ofBody n body).vars = [] ↔ body.any Statement.declares = false := by
  induction body generalizing n with
  | nil => exact ⟨fun _ => rfl, fun _ => rfl⟩
  | cons s rest ih =>
    rw [ofBody, vars_append, append_eq_nil_iff, any_cons, Bool.or_eq_false_iff, ih]
    refine and_congr_left' ?_
    cases s with
    | binding | store => exact iff_of_false (cons_ne_nil _ _) Bool.noConfusion
    | link _ links => exact ofLinks_vars_eq_nil
    | _ => exact ⟨fun _ => rfl, fun _ => rfl⟩

end Contribution

theorem Statement.not_declares_of_branch {body : List Statement}
    (h : allPlaced .branch body) : body.any declares = false := by
  induction body with
  | nil => rfl
  | cons s rest ih =>
    obtain ⟨hs, hrest⟩ := Bool.and_eq_true_iff.mp h
    rw [any_cons, ih hrest, Bool.or_false]
    cases s <;> first | rfl | cases hs

/-- A block sets the variables of its `let`s. -/
theorem MarkupBlock.bindings_eq {b : MarkupBlock} (hplaced : Statement.allPlaced .block b.body) :
    b.bindings = (Contribution.ofBody 0 b.body).vars.map fun x => .var x.1 x.2 := by
  rw [bindings]
  generalize 0 = n
  generalize b.body = body at hplaced
  induction body generalizing n with
  | nil => rfl
  | cons s rest ih =>
    obtain ⟨hs, hrest⟩ := Bool.and_eq_true_iff.mp hplaced
    rw [Contribution.ofBody, Contribution.vars_append, map_append, ← ih _ hrest]
    cases s <;> first | rfl | cases hs

end Stencil
