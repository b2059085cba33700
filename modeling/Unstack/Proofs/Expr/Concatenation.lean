import Mathlib.Data.List.Induction
import Unstack.Proofs.Expr.Effects
import Unstack.Recovery.Scratch

namespace Unstack

/-- What can be appended to a text: an integer, or a string that may be `null`. -/
inductive Piece where
  | int (value : BitVec 32)
  | string (value : Option String)

namespace Piece

def isText : Piece → Bool
  | int _ => false
  | string _ => true

def text : Piece → String
  | int n => toString n.toInt
  | string s => s.getD "null"

/-- Integers are added, anything else is put together. -/
def plus : Piece → Piece → Piece
  | int a, int b => int (a + b)
  | a, b => string (some (a.text ++ b.text))

/-- What a builder holds that is made with this argument: an integer is only the room for the text. A negative one is
refused, and so is `null`. -/
def content : Option Piece → Option String
  | none => some ""
  | some (string s) => s
  | some (int n) => if 0 ≤ n.toInt then some "" else none

def joined (pieces : List Piece) : String := String.join (pieces.map text)

theorem plus_eq {a b : Piece} (some_text : (a.isText || b.isText) = true) : a.plus b = string (some (a.text ++ b.text)) := by
  cases a with
  | string => rfl
  | int =>
    cases b with
    | string => rfl
    | int => cases some_text

theorem foldl_plus (pieces : List Piece) (s : String) :
    pieces.foldl plus (string (some s)) = string (some (s ++ joined pieces)) := by
  induction pieces generalizing s with
  | nil => simp [joined]
  | cons a rest ih =>
    rw [List.foldl_cons, plus_eq rfl, ih]
    simp [joined, text, String.join_cons, String.append_assoc]

/-- A sum with a text among its first two parts is a text. -/
theorem foldl_plus_cons {a b : Piece} (some_text : (a.isText || b.isText) = true) (rest : List Piece) :
    (b :: rest).foldl plus a = string (some (joined (a :: b :: rest))) := by
  rw [List.foldl_cons, plus_eq some_text, foldl_plus]
  simp [joined, String.join_cons, String.append_assoc]

end Piece

namespace Expr

/-- `new t(arg).append(part)…` -/
def appendChain (t : JavaType) (arg? : Option Expr) (parts : List Expr) : Expr :=
  parts.foldl (fun chain part => .call chain "append" [part]) (.create t arg?.toList)

variable {t : JavaType} {arg? : Option Expr} {parts : List Expr}

theorem appendChain_concat (part : Expr) :
    appendChain t arg? (parts ++ [part]) = .call (appendChain t arg? parts) "append" [part] := by
  simp [appendChain]

/-- A chain of calls on a builder gives back its parts. -/
theorem builderParts_appendChain (builder : isStringBuilder t = true) :
    builderParts (appendChain t arg? parts) = some (arg?.toList ++ parts) := by
  induction parts using List.reverseRecOn with
  | nil => cases arg? <;> simp [appendChain, builderParts, builder]
  | append_singleton parts part ih => simp [appendChain_concat, builderParts, ih]

theorem concat?_of_builderParts {chain : Expr} {operands : List Expr} (found : chain.builderParts = some operands) :
    ∃ first rest, chain.concat? = some (rest.foldl (.binary .add) first) ∧
      (operands.any isStringLiteral = true ∧ operands = first :: rest ∨ first = .string "" ∧ rest = operands) := by
  rw [concat?, found, Option.bind_eq_bind, Option.bind_some]
  split_ifs with literal
  · cases operands with
    | nil => cases literal
    | cons first rest => exact ⟨first, rest, rfl, .inl ⟨literal, rfl⟩⟩
  · exact ⟨.string "", operands, rfl, .inr ⟨rfl, rfl⟩⟩

/-- The operands that a sum begins with are integers, and there are two of them. -/
def startsWithInts (isText : Expr → Bool) : List Expr → Bool
  | a :: b :: _ => !isText a && !isText b
  | _ => false

end Expr

namespace Host

variable {σ ε ν : Type} {M : Host σ ε ν} {value : Piece → ν} {builder : String → ν} {w w' : World σ}

/-- Sums of integers and strings, and builders of text, are what they are in Java. -/
structure BuildsText (M : Host σ ε ν) (value : Piece → ν) (builder : String → ν) : Prop where
  apart : Function.Injective value
  literal (s : String) : M.constant (.string s) = value (.string (some s))
  add (a b : Piece) : M.operate .add (value a) (value b) = pure (value (a.plus b))
  create {t : JavaType} {w w' : World σ} {v : ν} (arg? : Option Piece) : Expr.isStringBuilder t = true →
    ((M.perform (.create t) (arg?.toList.map value)).outcome w = (.ok v, w') ↔
      ∃ s, Piece.content arg? = some s ∧ v = builder s ∧ w' = w)
  append (s : String) (a : Piece) : M.perform (.call "append") [builder s, value a] = pure (builder (s ++ a.text))
  finish (s : String) : M.perform (.call "toString") [builder s] = pure (value (.string (some s)))

/-- Whenever the expression has a value, this is a string or an integer, as `isText` says. -/
def Gives (M : Host σ ε ν) (value : Piece → ν) (isText : Bool) (e : Expr) : Prop :=
  ∀ w v w', (M.eval e).outcome w = (.ok v, w') → ∃ a : Piece, v = value a ∧ a.isText = isText

theorem evalAll_cons_eq_ok {e : Expr} {es : List Expr} {vs : List ν} :
    (M.evalAll (e :: es)).outcome w = (.ok vs, w') ↔ ∃ v mid us, (M.eval e).outcome w = (.ok v, mid) ∧
      (M.evalAll es).outcome mid = (.ok us, w') ∧ v :: us = vs := by
  rw [evalAll, Run.outcome_bind_eq_ok]
  simp only [Run.outcome_bind_eq_ok, Run.outcome_pure, Prod.mk.injEq, Except.ok.injEq]
  constructor
  · rintro ⟨v, mid, first, us, _, others, same, rfl⟩
    exact ⟨v, mid, us, first, others, same⟩
  · rintro ⟨v, mid, us, first, others, same⟩
    exact ⟨v, mid, first, us, w', others, same, rfl⟩

theorem evalAll_concat {es : List Expr} {e : Expr} {vs : List ν} {v : ν} {mid : World σ}
    (first : (M.evalAll es).outcome w = (.ok vs, mid)) (last : (M.eval e).outcome mid = (.ok v, w')) :
    (M.evalAll (es ++ [e])).outcome w = (.ok (vs ++ [v]), w') := by
  induction es generalizing w vs with
  | nil =>
    cases first
    exact evalAll_cons_eq_ok.mpr ⟨v, w', [], last, rfl, rfl⟩
  | cons e' es ih =>
    obtain ⟨v', mid', us, run, others, rfl⟩ := evalAll_cons_eq_ok.mp first
    exact evalAll_cons_eq_ok.mpr ⟨v', mid', us ++ [v], run, ih others, rfl⟩

namespace BuildsText

theorem eval_literal (builds : M.BuildsText value builder) (s : String) : M.eval (.string s) = pure (value (.string (some s))) :=
  congrArg pure (builds.literal s)

/-- A sum is made from left to right. -/
theorem eval_sum (builds : M.BuildsText value builder) {first : Expr} {rest : List Expr} {a : Piece}
    {pieces : List Piece} (run : (M.evalAll (first :: rest)).outcome w = (.ok ((a :: pieces).map value), w')) :
    (M.eval (rest.foldl (.binary .add) first)).outcome w = (.ok (value (pieces.foldl Piece.plus a)), w') := by
  induction rest generalizing first a pieces with
  | nil =>
    obtain ⟨v, mid, us, run, others, same⟩ := evalAll_cons_eq_ok.mp run
    cases others
    cases pieces with
    | nil =>
      cases same
      exact run
    | cons => cases same
  | cons e rest ih =>
    obtain ⟨v, mid, us, run, others, same⟩ := evalAll_cons_eq_ok.mp run
    obtain ⟨v', mid', us', run', others', rfl⟩ := evalAll_cons_eq_ok.mp others
    cases pieces with
    | nil => cases same
    | cons b pieces =>
      cases same
      rw [List.foldl_cons, List.foldl_cons]
      refine ih (evalAll_cons_eq_ok.mpr ⟨value (a.plus b), mid', pieces.map value, ?_, others', rfl⟩)
      rw [M.eval_binary rfl]
      refine Run.outcome_bind_eq_ok.mpr ⟨_, mid, run, Run.outcome_bind_eq_ok.mpr ⟨_, mid', run', ?_⟩⟩
      rw [builds.add, Run.outcome_pure]

/-- What a chain holds whose operands have values: their texts, one after the other. -/
theorem eval_appendChain (builds : M.BuildsText value builder) {isText : Expr → Bool} {t : JavaType}
    {arg? : Option Expr} {parts : List Expr} (isBuilder : Expr.isStringBuilder t = true)
    (typed : ∀ e ∈ arg?.toList ++ parts, M.Gives value (isText e) e) (textual : ∀ arg ∈ arg?, isText arg = true)
    {v : ν} (run : (M.eval (Expr.appendChain t arg? parts)).outcome w = (.ok v, w')) :
    ∃ pieces : List Piece, (M.evalAll (arg?.toList ++ parts)).outcome w = (.ok (pieces.map value), w') ∧
      pieces.map Piece.isText = (arg?.toList ++ parts).map isText ∧ v = builder (Piece.joined pieces) := by
  induction parts using List.reverseRecOn generalizing w' v with
  | nil =>
    obtain ⟨vs, mid, args, created⟩ := Run.outcome_bind_eq_ok.mp run
    cases arg? with
    | none =>
      cases args
      obtain ⟨s, content, rfl, rfl⟩ := (builds.create none isBuilder).mp created
      cases content
      exact ⟨[], rfl, rfl, rfl⟩
    | some arg =>
      obtain ⟨_, _, _, first, others, rfl⟩ := evalAll_cons_eq_ok.mp args
      cases others
      obtain ⟨a, rfl, kind⟩ := typed arg (by simp) _ _ _ first
      obtain ⟨s, content, rfl, rfl⟩ := (builds.create (some a) isBuilder).mp created
      cases a with
      | int => simp [Piece.isText, textual arg rfl] at kind
      | string =>
        cases content
        exact ⟨[.string (some s)], args, by simpa using kind, by simp [Piece.joined, Piece.text]⟩
  | append_singleton parts part ih =>
    rw [Expr.appendChain_concat] at run
    obtain ⟨receiver, mid, chain, rest⟩ := Run.outcome_bind_eq_ok.mp run
    obtain ⟨vs, mid', args, appended⟩ := Run.outcome_bind_eq_ok.mp rest
    obtain ⟨_, _, _, last, others, rfl⟩ := evalAll_cons_eq_ok.mp args
    cases others
    obtain ⟨pieces, before, kinds, rfl⟩ := ih (fun e member => typed e (by simp at member ⊢; tauto)) chain
    obtain ⟨a, rfl, kind⟩ := typed part (by simp) _ _ _ last
    rw [builds.append] at appended
    cases appended
    refine ⟨pieces ++ [a], ?_, ?_, ?_⟩
    · rw [← List.append_assoc, List.map_append]
      exact evalAll_concat before last
    · simp [kinds, kind]
    · simp [Piece.joined, String.join_append]

/-- A sum of operands among which there is a literal is their text, unless it begins with two integers. -/
theorem eval_text (builds : M.BuildsText value builder) {isText : Expr → Bool} {first : Expr} {rest : List Expr}
    {pieces : List Piece} (run : (M.evalAll (first :: rest)).outcome w = (.ok (pieces.map value), w'))
    (kinds : pieces.map Piece.isText = (first :: rest).map isText)
    (literal : (first :: rest).any Expr.isStringLiteral = true)
    (concatenates : Expr.startsWithInts isText (first :: rest) = false) :
    (M.eval (rest.foldl (.binary .add) first)).outcome w = (.ok (value (.string (some (Piece.joined pieces)))), w') := by
  cases pieces with
  | nil => cases kinds
  | cons a pieces =>
    rw [builds.eval_sum run]
    cases rest with
    | nil =>
      obtain ⟨s, rfl⟩ : ∃ s, first = .string s := by
        cases first with
        | string s => exact ⟨s, rfl⟩
        | _ => cases literal
      obtain ⟨_, _, _, read, others, same⟩ := evalAll_cons_eq_ok.mp run
      rw [builds.eval_literal, Run.outcome_pure] at read
      cases read
      cases others
      obtain ⟨same, none⟩ := List.cons.inj same
      cases builds.apart same
      cases List.map_eq_nil_iff.mp none.symm
      simp [Piece.joined, Piece.text]
    | cons second rest =>
      cases pieces with
      | nil => simp at kinds
      | cons b pieces =>
        obtain ⟨kind, kind', _⟩ : a.isText = isText first ∧ b.isText = isText second ∧ _ := by simpa using kinds
        rw [Piece.foldl_plus_cons]
        rw [kind, kind']
        simpa [Expr.startsWithInts, ← Bool.not_or] using concatenates

end BuildsText

/-- A chain of calls on a new builder of text, and the sum that is written for it. If an argument of the constructor is a
string, and if the sum does not begin with two integers where it holds a literal, the sum is the text that the chain
would give. -/
theorem eval_concat_eq_text {isText : Expr → Bool} {t : JavaType} {arg? : Option Expr} {parts : List Expr}
    (builds : M.BuildsText value builder) (isBuilder : Expr.isStringBuilder t = true)
    (typed : ∀ e ∈ arg?.toList ++ parts, M.Gives value (isText e) e) (textual : ∀ arg ∈ arg?, isText arg = true)
    (concatenates : (arg?.toList ++ parts).any Expr.isStringLiteral = true →
      Expr.startsWithInts isText (arg?.toList ++ parts) = false) :
    ∃ sum, (Expr.appendChain t arg? parts).concat? = some sum ∧ ∀ w text w',
      (M.eval (.call (Expr.appendChain t arg? parts) "toString" [])).outcome w = (.ok (value (.string (some text))), w') →
        (M.eval sum).outcome w = (.ok (value (.string (some text))), w') := by
  obtain ⟨first, rest, folded, parted⟩ := Expr.concat?_of_builderParts (Expr.builderParts_appendChain isBuilder)
  refine ⟨_, folded, fun w text w' run => ?_⟩
  obtain ⟨_, mid, chain, last⟩ := Run.outcome_bind_eq_ok.mp run
  obtain ⟨pieces, values, kinds, rfl⟩ := builds.eval_appendChain isBuilder typed textual chain
  have finished : (M.perform (.call "toString") [builder (Piece.joined pieces)]).outcome mid = _ := last
  rw [builds.finish, Run.outcome_pure] at finished
  cases builds.apart (Except.ok.inj (Prod.mk.inj finished).1)
  cases (Prod.mk.inj finished).2
  rcases parted with ⟨literal, operands⟩ | ⟨rfl, rfl⟩
  · rw [operands] at values kinds literal concatenates
    exact builds.eval_text values kinds literal (concatenates literal)
  · have empty : (M.eval (.string "")).outcome w = (.ok (value (.string (some ""))), w) := by
      rw [builds.eval_literal, Run.outcome_pure]
    have values' : (M.evalAll (.string "" :: (arg?.toList ++ parts))).outcome w =
      (.ok ((.string (some "") :: pieces).map value), w') := evalAll_cons_eq_ok.mpr ⟨_, w, _, empty, values, rfl⟩
    rw [builds.eval_sum values', Piece.foldl_plus, String.empty_append]

/-- All variables are integers. -/
def texts : Host (String → BitVec 32) Unit (Piece ⊕ String) where
  constant e := .inl <| match e with
    | .int n => .int (BitVec.ofInt 32 n)
    | .string s => .string (some s)
    | _ => .string none
  fetch p := match p with
    | .var x => fun w => (.ok (.inl (.int (w.state x))), w)
    | _ => throw ()
  put _ _ := throw ()
  operate op v v' := match op, v, v' with
    | .add, .inl a, .inl b => pure (.inl (a.plus b))
    | _, _, _ => throw ()
  truth _ := throw ()
  perform primitive operands := match primitive, operands with
    | .create _, [] => pure (.inr "")
    | .create _, [.inl a] => match Piece.content (some a) with
      | some s => pure (.inr s)
      | none => throw ()
    | .call "append", [.inr s, .inl a] => pure (.inr (s ++ a.text))
    | .call "toString", [.inr s] => pure (.inl (.string (some s)))
    | _, _ => throw ()
  noPlace := ()

theorem texts_buildsText : texts.BuildsText Sum.inl Sum.inr where
  apart _ _ := Sum.inl.inj
  literal _ := rfl
  add _ _ := rfl
  create arg? _ := by
    cases arg? with
    | none => simp [texts, Piece.content, eq_comm]
    | some a =>
      cases content : Piece.content (some a) with
      | none =>
        refine iff_of_false (fun run => ?_) (by simp)
        simp only [texts, Option.toList_some, List.map_cons, List.map_nil, content] at run
        cases run
      | some s => simp [texts, content, eq_comm]
  append _ _ := rfl
  finish _ := rfl

/-- `x` is one, and all else is two. -/
def oneTwo : World (String → BitVec 32) := ⟨fun x => if x = "x" then 1 else 2, []⟩

/-- `new StringBuilder(arg).append(part)…` -/
def built (arg? : Option Expr) (parts : List Expr) : Expr := .appendChain (.object "java.lang.StringBuilder") arg? parts

/-- A sum that begins with one integer, and integers behind a literal that are not added. -/
theorem eval_concat_eq_text_pair : ∃ sum, (built none [.var "x", .string ",", .var "y", .var "y"]).concat? = some sum ∧
    (texts.eval sum).outcome oneTwo = (.ok (.inl (.string (some "1,22"))), oneTwo) := by
  have typed : ∀ e ∈ (none : Option Expr).toList ++ [.var "x", .string ",", .var "y", .var "y"],
      texts.Gives Sum.inl e.isStringLiteral e := by
    intro e member w v w' run
    simp only [Option.toList_none, List.nil_append, List.mem_cons, List.not_mem_nil, or_false] at member
    rcases member with rfl | rfl | rfl | rfl <;> cases run <;> exact ⟨_, rfl, rfl⟩
  obtain ⟨sum, folded, same⟩ := eval_concat_eq_text texts_buildsText (t := .object "java.lang.StringBuilder") rfl typed
    (by simp) (by decide)
  exact ⟨sum, folded, same oneTwo "1,22" oneTwo rfl⟩

/-- Integers in front of a literal are added, and the room that a builder is made with is taken for its text. -/
theorem concat_loses_text :
    (∃ sum, (built none [.var "x", .var "y", .string "a"]).concat? = some sum ∧
      (texts.eval (.call (built none [.var "x", .var "y", .string "a"]) "toString" [])).outcome oneTwo =
        (.ok (.inl (.string (some "12a"))), oneTwo) ∧
      (texts.eval sum).outcome oneTwo = (.ok (.inl (.string (some "3a"))), oneTwo)) ∧
    ∃ sum, (built (some (.int 16)) [.string "a"]).concat? = some sum ∧
      (texts.eval (.call (built (some (.int 16)) [.string "a"]) "toString" [])).outcome oneTwo =
        (.ok (.inl (.string (some "a"))), oneTwo) ∧
      (texts.eval sum).outcome oneTwo = (.ok (.inl (.string (some "16a"))), oneTwo) :=
  ⟨⟨_, rfl, rfl, rfl⟩, _, rfl, rfl, rfl⟩

end Host

end Unstack
