import Unstack.Graph.Text
import Unstack.Json.Reader
import Unstack.Proofs.Expr.Minus

namespace Unstack

namespace Text

variable {quote c : Char} {cs written : List Char}

/-- What may enclose a literal, as `"` and `'` do: no letter or digit, no backslash and no control character. -/
def isQuote (c : Char) : Bool := !c.isAlphanum && c != '\\' && !isControl c

/-- The characters that no backslash escapes. -/
def bare : List Char → List Char
  | [] => []
  | '\\' :: _ :: rest => bare rest
  | c :: rest => c :: bare rest

/-- What a backslash and the given character stand for. -/
def unescapeChar : Char → Char
  | 'n' => '\n'
  | 'r' => '\r'
  | 't' => '\t'
  | c => c

/-- Reads from left to right up to the quote that ends a literal, and gives what stands behind it. -/
def readQuoted? (quote : Char) : List Char → Option (List Char × List Char)
  | [] => none
  | '\\' :: 'u' :: a :: b :: c :: d :: rest => do
    let unit ← Json.hex4? [a, b, c, d]
    (readQuoted? quote rest).map (Prod.map (Char.ofNat unit.1 :: ·) id)
  | '\\' :: c :: rest => (readQuoted? quote rest).map (Prod.map (unescapeChar c :: ·) id)
  | c :: rest => if c = quote then some ([], rest) else (readQuoted? quote rest).map (Prod.map (c :: ·) id)

theorem hex_of_lt {n : Nat} (small : n < 256) : hex 4 n = ['0', '0', (n / 16).digitChar, (n % 16).digitChar] := by
  unfold hex
  by_cases digit : n < 16
  · rw [Nat.toDigits_of_lt_base digit, Nat.div_eq_of_lt digit, Nat.mod_eq_of_lt digit]
    rfl
  · rw [Nat.toDigits_of_base_le (by decide) (by omega), Nat.toDigits_of_lt_base (by omega)]
    rfl

theorem digitChar_of_lt : ∀ d < 16, Json.hexValue? d.digitChar = some d ∧ d.digitChar.isAlphanum = true ∧
    isControl d.digitChar = false := by decide

/-- How a character is written: behind a backslash, as a number, or as it is. -/
inductive Escapes (quote : Char) : Char → List Char → Prop
  | named {c e : Char} : e ≠ 'u' → isControl e = false → unescapeChar e = c → Escapes quote c ['\\', e]
  | number {a b : Nat} : a < 16 → b < 16 →
      Escapes quote (Char.ofNat (16 * a + b)) ['\\', 'u', '0', '0', a.digitChar, b.digitChar]
  | plain {c : Char} : c ≠ '\\' → c ≠ quote → isControl c = false → Escapes quote c [c]

theorem Escapes.isControl (escapes : Escapes quote c written) : ∀ d ∈ written, Text.isControl d = false := by
  cases escapes with
  | named _ visible => simpa using ⟨rfl, visible⟩
  | @number a b high low => simpa using ⟨rfl, rfl, rfl, (digitChar_of_lt a high).2.2, (digitChar_of_lt b low).2.2⟩
  | plain _ _ visible => simpa using visible

theorem Escapes.readQuoted? (escapes : Escapes quote c written) (rest : List Char) :
    Text.readQuoted? quote (written ++ rest) = (Text.readQuoted? quote rest).map (Prod.map (c :: ·) id) := by
  cases escapes with
  | named other _ stands =>
    rw [List.cons_append, List.singleton_append, Text.readQuoted?, stands]
    simp [other]
  | @number a b high low =>
    have value : Json.hex4? ['0', '0', a.digitChar, b.digitChar] = some (16 * a + b, []) := by
      have zero : Json.hexValue? '0' = some 0 := rfl
      simp [Json.hex4?, zero, (digitChar_of_lt a high).1, (digitChar_of_lt b low).1, Nat.mul_comm]
    simp only [List.cons_append, List.nil_append]
    rw [Text.readQuoted?, value]
    rfl
  | plain backslash other =>
    rw [List.singleton_append, Text.readQuoted?, if_neg other]
    all_goals simp [backslash]

theorem bare_cons (plain : c ≠ '\\') : bare (c :: cs) = c :: bare cs := by simp [bare, plain]

section Quote

variable (enclosing : isQuote quote = true)

include enclosing

theorem escapes_escapeChar (c : Char) : Escapes quote c (escapeChar quote c) := by
  unfold escapeChar
  split_ifs with backslash newline carriage tab own control
  · exact .named (by decide) rfl backslash.symm
  · exact .named (by decide) rfl newline.symm
  · exact .named (by decide) rfl carriage.symm
  · exact .named (by decide) rfl tab.symm
  · subst c
    refine .named ?_ ?_ ?_
    · rintro rfl
      cases enclosing
    · simp only [isQuote, Bool.and_eq_true, Bool.not_eq_true'] at enclosing
      exact enclosing.2
    · unfold unescapeChar
      split <;> first | rfl | cases enclosing
  · have small : c.toNat < 256 := by
      simp only [isControl, Bool.or_eq_true, Bool.and_eq_true, decide_eq_true_eq] at control
      omega
    have escapes : Escapes quote (Char.ofNat (16 * (c.toNat / 16) + c.toNat % 16)) _ := .number (by omega) (by omega)
    rwa [Nat.div_add_mod, Char.ofNat_toNat, ← hex_of_lt small] at escapes
  · exact .plain backslash own (by simpa using control)

theorem digitChar_ne {d : Nat} (small : d < 16) : d.digitChar ≠ '\\' ∧ d.digitChar ≠ quote := by
  have digit := (digitChar_of_lt d small).2.1
  constructor
  · intro same
    rw [same] at digit
    cases digit
  · rintro rfl
    simp [isQuote, digit] at enclosing

theorem Escapes.notMem_bare (escapes : Escapes quote c written) (absent : quote ∉ bare cs) :
    quote ∉ bare (written ++ cs) := by
  cases escapes with
  | named =>
    rw [List.cons_append, List.singleton_append, bare]
    exact absent
  | number high low =>
    have zero : '0' ≠ '\\' ∧ '0' ≠ quote := digitChar_ne enclosing (d := 0) (by decide)
    have first := digitChar_ne enclosing high
    have second := digitChar_ne enclosing low
    simp only [List.cons_append, List.nil_append, bare, bare_cons zero.1, bare_cons first.1, bare_cons second.1,
      List.mem_cons, not_or]
    exact ⟨zero.2.symm, zero.2.symm, first.2.symm, second.2.symm, absent⟩
  | plain backslash other =>
    rw [List.singleton_append, bare_cons backslash]
    exact List.not_mem_cons_of_ne_of_not_mem (Ne.symm other) absent

theorem quote_notMem_bare (cs : List Char) : quote ∉ bare (escape quote cs) := by
  induction cs with
  | nil => exact List.not_mem_nil
  | cons c cs ih => exact (escapes_escapeChar enclosing c).notMem_bare enclosing ih

theorem readQuoted?_escape (cs rest : List Char) :
    readQuoted? quote (escape quote cs ++ quote :: rest) = some (cs, rest) := by
  induction cs with
  | nil =>
    rw [escape, List.flatMap_nil, List.nil_append, readQuoted?, if_pos rfl]
    -- the quote is no backslash, so no escape begins here
    all_goals
      intros
      subst quote
      cases enclosing
  | cons c cs ih =>
    rw [escape, List.flatMap_cons, List.append_assoc, (escapes_escapeChar enclosing c).readQuoted?]
    exact congrArg _ ih

end Quote

end Text

namespace CaseLabel

variable {label : CaseLabel} {labels labels' : List CaseLabel} {rest : List Char}

/-- The number that some digits stand for, with a minus sign in front or without one. -/
def ofDigits (word : List Char) : Int :=
  if word.head? = some '-' then -(Nat.ofDigitChars 10 word.tail 0) else Nat.ofDigitChars 10 word 0

/-- Reads the label that a text begins with: a literal, or a word up to the next comma. -/
def read? (cs : List Char) : Option (CaseLabel × List Char) :=
  if cs.head? = some '"' then (Text.readQuoted? '"' cs.tail).map fun read => (string (String.ofList read.1), read.2)
  else
    let word := cs.takeWhile (· != ',')
    some (if String.ofList word = "default" then fallback else int (ofDigits word), cs.dropWhile (· != ','))

theorem ofDigits_toString (v : Int) : ofDigits (toString v).toList = v := by
  rw [Expr.toList_toString]
  split
  · rename_i natural
    have unsigned : (Nat.toDigits 10 v.toNat).head? ≠ some '-' := by
      intro sign
      have digit := Nat.isDigit_of_mem_toDigits (by decide) (by decide) (List.mem_of_head? sign)
      cases digit
    rw [ofDigits, if_neg unsigned, Nat.ofDigitChars_ten_toDigits]
    omega
  · rw [ofDigits, List.head?_cons, if_pos rfl, List.tail_cons, Nat.ofDigitChars_ten_toDigits]
    omega

theorem read?_word {word : List Char} (noComma : ',' ∉ word) (noQuote : '"' ∉ word) (ends : ∀ c ∈ rest.head?, c = ',') :
    read? (word ++ rest) = some (if String.ofList word = "default" then fallback else int (ofDigits word), rest) := by
  have opening : (word ++ rest).head? ≠ some '"' := by
    intro head
    rw [List.head?_append, Option.or_eq_some_iff] at head
    rcases head with first | ⟨_, first⟩
    · exact noQuote (List.mem_of_head? first)
    · cases ends _ first
  obtain ⟨taken, left⟩ : (word ++ rest).takeWhile (· != ',') = word ∧ (word ++ rest).dropWhile (· != ',') = rest :=
    Text.takeWhile_until (fun c member => bne_iff_ne.mpr (ne_of_mem_of_not_mem member noComma)) (by simpa using ends)
  rw [read?, if_neg opening, taken, left]

theorem notMem_toString {c : Char} (digit : c.isDigit = false) (minus : c ≠ '-') (v : Int) : c ∉ (toString v).toList := by
  have absent (n : Nat) : c ∉ Nat.toDigits 10 n := by
    intro member
    rw [Nat.isDigit_of_mem_toDigits (by decide) (by decide) member] at digit
    cases digit
  rw [Expr.toList_toString]
  split
  · exact absent _
  · exact List.not_mem_cons_of_ne_of_not_mem minus (absent _)

/-- What is read is the label that was written, up to the end or the comma behind it. -/
theorem read?_text (named : ∀ name, label ≠ enumConstant name) (ends : ∀ c ∈ rest.head?, c = ',') :
    read? (label.text.toList ++ rest) = some (label, rest) := by
  cases label with
  | int key =>
    have word : toString key ≠ "default" := fun same =>
      notMem_toString (c := 'd') rfl (by decide) key (same ▸ by decide)
    rw [text, read?_word (notMem_toString rfl (by decide) key) (notMem_toString rfl (by decide) key) ends,
      String.ofList_toList, if_neg word, ofDigits_toString]
  | string s =>
    have literal : (string s).text.toList ++ rest = '"' :: (Text.escape '"' s.toList ++ '"' :: rest) := by
      simp [text, Text.literal]
    rw [literal, read?, List.head?_cons, if_pos rfl, List.tail_cons, Text.readQuoted?_escape rfl, Option.map_some,
      String.ofList_toList]
  | enumConstant name => exact absurd rfl (named name)
  | fallback => exact read?_word (by decide) (by decide) ends

theorem text_ne_nil (named : ∀ name, label ≠ enumConstant name) : label.text.toList ≠ [] := by
  cases label with
  | int key =>
    rw [text, Expr.toList_toString]
    split
    · exact Nat.toDigits_ne_nil
    · exact List.cons_ne_nil _ _
  | enumConstant name => exact absurd rfl (named name)
  | string | fallback => simp [text, Text.literal]

theorem toList_listText_cons (label : CaseLabel) (labels : List CaseLabel) : (listText (label :: labels)).toList =
    label.text.toList ++ labels.flatMap fun l => ',' :: l.text.toList := by
  induction labels generalizing label with
  | nil => simp [listText]
  | cons next labels ih =>
    have tail := ih next
    simp only [listText, String.toList_intercalate, List.map_cons] at tail ⊢
    rw [List.intercalate_cons_cons, tail]
    simp

theorem flatMap_text_inj (named : ∀ name, enumConstant name ∉ labels) (named' : ∀ name, enumConstant name ∉ labels')
    (same : (labels.flatMap fun l => ',' :: l.text.toList) = labels'.flatMap fun l => ',' :: l.text.toList) :
    labels = labels' := by
  have ends (labels : List CaseLabel) : ∀ c ∈ (labels.flatMap fun l => ',' :: l.text.toList).head?, c = ',' := by
    cases labels <;> simp
  induction labels generalizing labels' with
  | nil => cases labels' <;> simp_all
  | cons label labels ih =>
    cases labels' with
    | nil => simp at same
    | cons label' labels' =>
      simp only [List.mem_cons, not_or, forall_and] at named named'
      have read := read?_text (fun name => Ne.symm (named.1 name)) (ends labels)
      rw [List.flatMap_cons, List.flatMap_cons, List.cons_append, List.cons_append, List.cons.injEq] at same
      rw [same.2, read?_text (fun name => Ne.symm (named'.1 name)) (ends labels'), Option.some.injEq, Prod.mk.injEq] at read
      rw [read.1, ih named.2 named'.2 read.2.symm]

theorem listText_inj (named : ∀ name, enumConstant name ∉ labels) (named' : ∀ name, enumConstant name ∉ labels')
    (same : listText labels = listText labels') : labels = labels' := by
  have written {label labels} (named : ∀ name, enumConstant name ∉ label :: labels) :
      (listText []).toList ≠ (listText (label :: labels)).toList := by
    rw [toList_listText_cons]
    have nonempty := text_ne_nil fun name here => named name (here ▸ .head _)
    exact fun empty => nonempty (List.append_eq_nil_iff.mp empty.symm).1
  cases labels with
  | nil =>
    cases labels' with
    | nil => rfl
    | cons => exact absurd (congrArg String.toList same) (written named')
  | cons =>
    cases labels' with
    | nil => exact absurd (congrArg String.toList same.symm) (written named)
    | cons =>
      have texts := congrArg String.toList same
      rw [toList_listText_cons, toList_listText_cons] at texts
      exact flatMap_text_inj named named' (congrArg (',' :: ·) texts)

/-- Escaped text has no control characters and no quote but behind a backslash, and what is read from left to right up
to the quote behind it is the text before. So the text of labels other than names tells the labels. -/
theorem quoted_decodable :
    (∀ quote, Text.isQuote quote = true → ∀ cs,
      quote ∉ Text.bare (Text.escape quote cs) ∧ (∀ c ∈ Text.escape quote cs, Text.isControl c = false) ∧
      ∀ rest, Text.readQuoted? quote (Text.escape quote cs ++ quote :: rest) = some (cs, rest)) ∧
    ∀ labels labels', (∀ name, enumConstant name ∉ labels) → (∀ name, enumConstant name ∉ labels') →
      listText labels = listText labels' → labels = labels' := by
  refine ⟨fun quote enclosing cs => ?_, fun labels labels' => listText_inj⟩
  refine ⟨Text.quote_notMem_bare enclosing cs, fun d member => ?_, Text.readQuoted?_escape enclosing cs⟩
  obtain ⟨c, _, inside⟩ := List.mem_flatMap.mp member
  exact (Text.escapes_escapeChar enclosing c).isControl d inside

theorem quoted_decodable_nested : Text.isQuote '"' = true ∧ Text.isQuote '\'' = true ∧
    Text.readQuoted? '\'' (Text.escape '\'' ['\\', 'u', '\'', '\x07'] ++ ['\'']) = some (['\\', 'u', '\'', '\x07'], []) ∧
    listText [string "1,\"2", fallback] ≠ listText [int 1, string "2", fallback] := by
  refine ⟨rfl, rfl, (quoted_decodable.1 '\'' rfl _).2.2 [], fun same => ?_⟩
  have labels := quoted_decodable.2 _ _ (by simp) (by simp) same
  simp at labels

end CaseLabel

end Unstack
