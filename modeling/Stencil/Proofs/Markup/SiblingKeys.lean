import Mathlib.Data.List.TakeWhile
import Stencil.Proofs.Markup.Classes

/-!
# Keys of siblings

The children of an object are told apart by their keys. The key of a child is the key of the list,
a colon and the number of the child; branches and items add a colon and something else. Main
statement: nodes at different places of a list have different keys, whatever strings the variables
of the loops hold, as long as the key of the list has one value.

Digits hold no colon, so the number ends where the key does or at the next colon. The invariant of
the induction is that a key has the value of the key it was made from, and then nothing or a colon.
-/
namespace Stencil

open Script (Interpretation Env)
open List Fragment

/-! ## The keys in the code -/

/-- A key in the code, and the variables of the loops around it, outermost first. -/
structure NodeKey where
  loops : List String
  value : Script.Expr

namespace NodeKey

def within (names : List String) (k : NodeKey) : NodeKey := { k with loops := names ++ k.loops }

/-- All loops go over strings. -/
def InStrings {V : Type} (I : Interpretation V) (env : Env V) (k : NodeKey) : Prop :=
  ∀ name ∈ k.loops, ∃ text, env name = I.string text

end NodeKey

namespace Script.Expr

/-- The key of the node that is built here. -/
def ownKeys (x : Expr) : List NodeKey := (x.built.property? "key").toList.map (NodeKey.mk [])

/-- The two arms of a conditional. -/
def arms : Expr → Expr × Expr
  | .ternary _ chosen otherwise => (chosen, otherwise)
  | _ => (.missing, .missing)

/-- The parameters of the function that a method is called with, and what it returns. -/
def callback : Expr → List String × Expr
  | .call _ [.function _ params [.ret x]] => (params.map (·.1), x)
  | _ => ([], .missing)

end Script.Expr

/-- A body with one node is that node, and any other has a key of its own. -/
def Fragment.keys (single : Bool) (first : List NodeKey) (x : Script.Expr) : List NodeKey :=
  if single then first else x.ownKeys

mutual

/-- The keys of the nodes that the code of a statement gives: of the element itself, or of those in
branches and loops. What an element holds is below it, and an output is a value of the program. -/
def Statement.keys : Statement → Script.Expr → List NodeKey
  | .element .., x => x.ownKeys
  | .choice _ branches otherwise, x =>
    keysOfBranches (match otherwise with
      | none => fun _ => []
      | some body => fun x => Fragment.keys (Fragment.isSingle body) (keysOfFirst body x) x)
      branches x
  | .loop _ _ _ body, x =>
    (Fragment.keys (Fragment.isSingle body) (keysOfFirst body x.callback.2) x.callback.2).map
      (NodeKey.within x.callback.1)
  | .text .., _ | .output .., _ | .store .., _ | .binding .., _ | .link .., _ => []

/-- The keys of the first statement of a body that gives a node. -/
def keysOfFirst : List Statement → Script.Expr → List NodeKey
  | [], _ => []
  | s :: rest, x => if s.isControl then keysOfFirst rest x else s.keys x

def keysOfBranches (last : Script.Expr → List NodeKey) :
    List (Expr × List Statement) → Script.Expr → List NodeKey
  | [], x => last x
  | (_, body) :: rest, x =>
    Fragment.keys (Fragment.isSingle body) (keysOfFirst body x.arms.1) x.arms.1 ++
      keysOfBranches last rest x.arms.2

end

/-! ## The values of keys -/

/-- Nothing, or something after a colon. -/
def isKeyTail (text : List Char) : Bool := text.head?.all (· = ':')

section Values

variable {V : Type} {I : Interpretation V} {env : Env V} {scope : BlockScope} {k : Script.Expr}
  {text later : String}

/-- The value of a key is a text with a tail. -/
def Prolongs (I : Interpretation V) (env : Env V) (text : String) (k : Script.Expr) : Prop :=
  ∃ tail, I.eval env k = I.string (text ++ tail) ∧ isKeyTail tail.toList = true

theorem Prolongs.refl (h : I.eval env k = I.string text) : Prolongs I env text k :=
  ⟨"", by rw [h, String.append_empty], rfl⟩

theorem Prolongs.shorten (h : Prolongs I env (text ++ (":" ++ later)) k) :
    Prolongs I env text k := by
  obtain ⟨tail, hvalue, -⟩ := h
  refine ⟨":" ++ later ++ tail, ?_, ?_⟩
  · rw [hvalue, String.append_assoc]
  · simp [isKeyTail]

theorem eval_branch (hadd : I.AddsStrings) (h : I.eval env k = I.string text) (i : Nat) :
    I.eval env (k.concat [.string s!":{i}"]) = I.string (text ++ (":" ++ toString i)) := by
  rw [Interpretation.eval_concat, h]
  exact hadd _ _

theorem eval_item (hadd : I.AddsStrings) (h : I.eval env k = I.string text) {name value : String}
    (hname : env name = I.string value) :
    I.eval env (k.concat [.string ":", .name name]) = I.string (text ++ (":" ++ value)) := by
  rw [Interpretation.eval_concat, h, ← String.append_assoc]
  simp only [map_cons, map_nil, foldl_cons, foldl_nil, Interpretation.eval, hname, hadd _ _]

/-- All keys whose loops go over strings have values with a text in front. -/
def AllProlong (I : Interpretation V) (env : Env V) (text : String) (keys : List NodeKey) : Prop :=
  ∀ key ∈ keys, key.InStrings I env → Prolongs I env text key.value

theorem AllProlong.nil : AllProlong I env text [] := fun _ h => absurd h not_mem_nil

theorem AllProlong.shorten {keys : List NodeKey}
    (h : AllProlong I env (text ++ (":" ++ later)) keys) : AllProlong I env text keys :=
  fun key hkey hstrings => (h key hkey hstrings).shorten

theorem AllProlong.append {first later : List NodeKey} (hfirst : AllProlong I env text first)
    (hlater : AllProlong I env text later) : AllProlong I env text (first ++ later) :=
  forall_mem_append.mpr ⟨hfirst, hlater⟩

/-- A node with a key has this key only. -/
theorem allProlong_ownKeys {x : Script.Expr} (hx : x.built.property? "key" = some k)
    (h : I.eval env k = I.string text) : AllProlong I env text x.ownKeys := by
  intro key hkey _
  rw [Script.Expr.ownKeys, hx] at hkey
  obtain rfl := mem_singleton.mp hkey
  exact .refl h

theorem Element.key_assemble (name : String) (classes : List ClassClause)
    (attributes : List (String × Expr)) (bindings : Prelude) (children : Option Script.Expr) :
    (assemble scope (some k) name classes attributes bindings children).built.property? "key" =
      some k := by
  rw [built_assemble]
  rfl

/-- The keys of a fragment, if those of its first node are known. -/
theorem Fragment.allProlong_keys (h : I.eval env k = I.string text) (body : List Statement)
    (hfirst : AllProlong I env text
      (keysOfFirst body ((bodyNodes scope true (some k) 0 body).headD .missing))) :
    AllProlong I env text (keys (isSingle body)
      (keysOfFirst body (fragment scope (some k) body)) (fragment scope (some k) body)) := by
  rw [fragment]
  cases isSingle body with
  | true => exact hfirst
  | false => exact allProlong_ownKeys rfl h

mutual

/-- The keys of a statement prolong the key that it is given. -/
theorem Statement.allProlong_keys (hadd : I.AddsStrings) {k : Script.Expr} {text : String}
    (h : I.eval env k = I.string text) (s : Statement) :
    AllProlong I env text (s.keys (s.node scope (some k))) := by
  cases s with
  | element p name classes attributes body =>
    rw [Statement.keys, Statement.node]
    exact allProlong_ownKeys (Element.key_assemble ..) h
  | choice p branches otherwise =>
    cases otherwise with
    | none =>
      rw [Statement.keys, Statement.node]
      exact allProlong_keysOfBranches hadd h 0 .nil branches
    | some body =>
      have hbranch := eval_branch hadd h branches.length
      have hbody := allProlong_keys hbranch body
        (allProlong_keysOfFirst hadd hbranch 0 body)
      rw [Statement.keys, Statement.node]
      refine allProlong_keysOfBranches hadd h 0 ?_ branches
      exact hbody.shorten
  | loop p name items body =>
    rw [Statement.keys, Statement.node]
    intro key hkey hstrings
    -- The variable of this loop is the first one around the key.
    obtain ⟨inner, hinner, rfl⟩ := mem_map.mp hkey
    obtain ⟨value, hvalue⟩ := hstrings name mem_cons_self
    have hitem := eval_item hadd h hvalue
    have hbody := allProlong_keys hitem body (allProlong_keysOfFirst hadd hitem 0 body)
    have hinside := hbody inner hinner fun n hn => hstrings n (mem_cons_of_mem name hn)
    exact hinside.shorten
  | text | output | store | binding | link => exact .nil

theorem allProlong_keysOfFirst (hadd : I.AddsStrings) {k : Script.Expr} {text : String}
    (h : I.eval env k = I.string text) (i : Nat) (body : List Statement) :
    AllProlong I env text
      (keysOfFirst body ((bodyNodes scope true (some k) i body).headD .missing)) := by
  match body with
  | [] => exact .nil
  | s :: rest =>
    rw [keysOfFirst, bodyNodes]
    split
    · exact allProlong_keysOfFirst hadd h i rest
    · exact s.allProlong_keys hadd h

theorem allProlong_keysOfBranches (hadd : I.AddsStrings) {k : Script.Expr} {text : String}
    (h : I.eval env k = I.string text) (i : Nat) {last : Script.Expr → List NodeKey}
    {x : Script.Expr} (hlast : AllProlong I env text (last x))
    (branches : List (Expr × List Statement)) :
    AllProlong I env text
      (keysOfBranches last branches (choiceNode scope (some k) i x branches)) := by
  match branches with
  | [] => exact hlast
  | (condition, body) :: rest =>
    have hbranch := eval_branch hadd h i
    rw [keysOfBranches, choiceNode]
    refine .append ?_ (allProlong_keysOfBranches hadd h (i + 1) hlast rest)
    exact (allProlong_keys hbranch body (allProlong_keysOfFirst hadd hbranch 0 body)).shorten

end

end Values

/-! ## Numbers in keys -/

variable {i j : Nat} {body : List Statement}

/-- Digits in front of a tail are the number, so two such texts are the same number. -/
theorem toDigits_append_inj {first later : List Char} (hfirst : isKeyTail first)
    (hlater : isKeyTail later) (h : Nat.toDigits 10 i ++ first = Nat.toDigits 10 j ++ later)
    : i = j := by
  have hdigits : ∀ n {tail : List Char}, isKeyTail tail →
      (Nat.toDigits 10 n ++ tail).takeWhile Char.isDigit = Nat.toDigits 10 n := by
    intro n tail htail
    have hall : ∀ c ∈ Nat.toDigits 10 n, c.isDigit :=
      fun c hc => Nat.isDigit_of_mem_toDigits (by decide) (by decide) hc
    have hnone : tail.takeWhile Char.isDigit = [] := by
      cases tail with
      | nil => rfl
      | cons c tail =>
        have hcolon : c = ':' := by simpa [isKeyTail] using htail
        rw [hcolon]
        rfl
    rw [takeWhile_append_of_pos hall, hnone, append_nil]
  refine toDigits_injective ?_
  rw [← hdigits i hfirst, h, hdigits j hlater]

theorem append_number_inj {text : String} {first later : String}
    (hfirst : isKeyTail first.toList) (hlater : isKeyTail later.toList)
    (h : text ++ (":" ++ toString i) ++ first = text ++ (":" ++ toString j) ++ later) : i = j := by
  have hchars := congrArg String.toList h
  simp only [String.toList_append, append_assoc, append_cancel_left_eq] at hchars
  exact toDigits_append_inj hfirst hlater (by simpa using hchars)

/-! ## Places in a list -/

theorem node_of_zip (scope : BlockScope) (key : Option Script.Expr) (i : Nat) {n : Nat}
    {s : Statement} {x : Script.Expr}
    (h : ((renderable body).zip (bodyNodes scope false key i body))[n]? = some (s, x)) :
    x = s.node scope (branchKey key (i + n)) := by
  induction body generalizing i n with
  | nil => simp [renderable] at h
  | cons first rest ih =>
    rw [bodyNodes, renderable, filter_cons] at h
    cases hcontrol : first.isControl with
    | true =>
      simp only [hcontrol] at h
      exact ih i h
    | false =>
      simp only [hcontrol] at h
      cases n with
      | zero =>
        obtain ⟨rfl, rfl⟩ := Prod.mk.inj (Option.some.inj h)
        rfl
      | succ n =>
        rw [ih (i + 1) h, Nat.add_right_comm, Nat.add_assoc]

/-- Two places in a list of children are there only if the body is no single node. -/
theorem nodes_of_places {scope : BlockScope} {k : Script.Expr} {nodes : List Script.Expr}
    (h : fragment scope (some k) body = .object [("key", k), ("children", .list nodes)])
    (hne : i ≠ j) {p q : Statement × Script.Expr}
    (hp : ((renderable body).zip nodes)[i]? = some p)
    (hq : ((renderable body).zip nodes)[j]? = some q) :
    nodes = bodyNodes scope false (some k) 0 body := by
  have hsingle : isSingle body = false := by
    have hi := (List.getElem?_eq_some_iff.mp hp).1
    have hj := (List.getElem?_eq_some_iff.mp hq).1
    rw [length_zip] at hi hj
    rw [isSingle, decide_eq_false_iff_not]
    omega
  rw [fragment, hsingle] at h
  injection h with hproperties
  injection (Prod.mk.inj (cons.inj (cons.inj hproperties).2).1).2 with hnodes
  exact hnodes.symm

/-- Nodes at different places in a list of children have keys with different values. -/
theorem sibling_keys_ne {scope : BlockScope} {key : Script.Expr} {body : List Statement}
    {nodes : List Script.Expr}
    (hlist : fragment scope (some key) body = .object [("key", key), ("children", .list nodes)])
    {i j : Nat} (hne : i ≠ j) {s t : Statement} {x y : Script.Expr}
    (hx : ((Fragment.renderable body).zip nodes)[i]? = some (s, x))
    (hy : ((Fragment.renderable body).zip nodes)[j]? = some (t, y))
    {k l : NodeKey} (hk : k ∈ s.keys x) (hl : l ∈ t.keys y)
    {V : Type} {I : Interpretation V} (hadd : I.AddsStrings) {ρ σ : Env V} {text : String}
    (hρ : I.eval ρ key = I.string text) (hσ : I.eval σ key = I.string text)
    (hkloops : k.InStrings I ρ) (hlloops : l.InStrings I σ) :
    ∃ a b, I.eval ρ k.value = I.string a ∧ I.eval σ l.value = I.string b ∧ a ≠ b := by
  obtain rfl := nodes_of_places hlist hne hx hy
  rw [node_of_zip scope (some key) 0 hx, Nat.zero_add] at hk
  rw [node_of_zip scope (some key) 0 hy, Nat.zero_add] at hl
  obtain ⟨first, hfirst, hfirstTail⟩ :=
    s.allProlong_keys hadd (eval_branch hadd hρ i) k hk hkloops
  obtain ⟨later, hlater, hlaterTail⟩ :=
    t.allProlong_keys hadd (eval_branch hadd hσ j) l hl hlloops
  refine ⟨_, _, hfirst, hlater, fun h => hne ?_⟩
  exact append_number_inj hfirstTail hlaterTail h

/-- Values that are strings and lists, and nothing else. -/
inductive TextValue where
  | text (text : String)
  | list (items : List TextValue)
  | other

namespace TextValue

def items : TextValue → Option (List TextValue)
  | .list vs => some vs
  | _ => none

def join : TextValue → TextValue → TextValue
  | .text s, .text t => .text (s ++ t)
  | _, _ => .other

def interpretation : Interpretation TextValue where
  undefined := .other
  string := .text
  number := .text
  object _ := .other
  list := .list
  function _ := .other
  member _ _ := .other
  item _ _ := .other
  call _ _ := .other
  method _ _ _ := .other
  visit v _ f := (v.items.map fun vs => TextValue.list (vs.map fun x => f [x])).getD .other
  construct _ := .other
  negate _ := .other
  truthy _ := true
  operate _ := join
  assign _ _ _ := .other
  items := items
  items_list _ := rfl
  visit_map v vs f h := by rw [h]; rfl

end TextValue

/-- A loop, then a choice between an element and a loop with two of them. -/
def listing : List Statement :=
  [.loop {} "x" (.name {} "xs") [.element {} "li" [] [] []],
    .choice {} [(.name {} "c", [.element {} "p" [] [] []])]
      (some [.loop {} "y" (.name {} "ys") [.element {} "q" [] [] [], .element {} "r" [] [] []]])]

theorem listing_sibling_keys_ne :
    ∃ nodes s t x y branch k l,
      fragment {} (some (.string "page:list")) listing =
        .object [("key", .string "page:list"), ("children", .list nodes)] ∧
      ((Fragment.renderable listing).zip nodes)[0]? = some (s, x) ∧
      ((Fragment.renderable listing).zip nodes)[1]? = some (t, y) ∧
      s.keys x = [⟨["x"], k⟩] ∧ t.keys y = [⟨[], branch⟩, ⟨["y"], l⟩] ∧
      ∃ a b, TextValue.interpretation.eval (fun _ => .text "1:0") k = .text a ∧
        TextValue.interpretation.eval (fun _ => .text "0") l = .text b ∧ a ≠ b := by
  have hlist : fragment {} (some (.string "page:list")) listing =
      .object [("key", .string "page:list"),
        ("children", .list (bodyNodes {} false (some (.string "page:list")) 0 listing))] := rfl
  have hadd : TextValue.interpretation.AddsStrings := fun _ _ => rfl
  have hstrings : ∀ (text : String) (k : NodeKey),
      k.InStrings TextValue.interpretation fun _ => .text text := fun text _ _ _ => ⟨text, rfl⟩
  refine ⟨_, _, _, _, _, _, _, _, hlist, rfl, rfl, rfl, rfl, ?_⟩
  exact sibling_keys_ne hlist (i := 0) (j := 1) (by decide) rfl rfl (List.mem_singleton_self _)
    (List.mem_cons_of_mem _ (List.mem_singleton_self _)) hadd rfl rfl (hstrings _ _) (hstrings _ _)

end Stencil
