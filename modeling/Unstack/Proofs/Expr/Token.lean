import Mathlib.Data.List.Chain
import Unstack.Expr.Text

namespace Unstack

namespace Text

/-- Anything but the space and the ASCII signs other than `$` and `_`. All that may stand in a Java identifier is among
it. -/
def isNamePart (c : Char) : Bool :=
  c = '$' || c = '_' ||
    !((0x20 ≤ c.toNat && c.toNat ≤ 0x2f) || (0x3a ≤ c.toNat && c.toNat ≤ 0x40) || (0x5b ≤ c.toNat && c.toNat ≤ 0x60) ||
      (0x7b ≤ c.toNat && c.toNat ≤ 0x7e))

def isName (s : String) : Bool := !s.toList.isEmpty && s.toList.all isNamePart

theorem isName_iff {s : String} : isName s = true ↔ s.toList ≠ [] ∧ ∀ c ∈ s.toList, isNamePart c = true := by
  simp [isName]

theorem takeWhile_until {p : Char → Bool} {cs rest : List Char} (inside : ∀ c ∈ cs, p c = true)
    (ends : ∀ c ∈ rest.head?, p c = false) : (cs ++ rest).takeWhile p = cs ∧ (cs ++ rest).dropWhile p = rest := by
  rw [List.takeWhile_append_of_pos inside, List.dropWhile_append_of_pos inside]
  cases rest with
  | nil => simp
  | cons c _ =>
    have other : ¬ p c = true := by simp [ends c rfl]
    rw [List.takeWhile_cons_of_neg other, List.dropWhile_cons_of_neg other, List.append_nil]
    exact ⟨rfl, rfl⟩

end Text

/-- What stands between two spaces. -/
inductive Connective where
  | binary (op : BinOp)
  | assign (op : Option BinOp)
  | question
  | colon

namespace Connective

def symbol : Connective → String
  | binary op => op.symbol
  | assign op => (match op with
    | some op => op.symbol
    | none => "") ++ "="
  | question => "?"
  | colon => ":"

/-- An assignment has no operator or one with a compound form. -/
def Valid : Connective → Prop
  | assign op => ∀ o ∈ op, o.hasCompoundForm = true
  | _ => True

def ofSymbol (s : String) : Option Connective :=
  match s with
  | "+" => some (binary .add)
  | "-" => some (binary .sub)
  | "*" => some (binary .mul)
  | "/" => some (binary .div)
  | "%" => some (binary .rem)
  | "==" => some (binary .eq)
  | "!=" => some (binary .ne)
  | "<" => some (binary .lt)
  | ">" => some (binary .gt)
  | "<=" => some (binary .le)
  | ">=" => some (binary .ge)
  | "&&" => some (binary .and)
  | "||" => some (binary .or)
  | "&" => some (binary .bitAnd)
  | "|" => some (binary .bitOr)
  | "^" => some (binary .bitXor)
  | "<<" => some (binary .shl)
  | ">>" => some (binary .shr)
  | ">>>" => some (binary .ushr)
  | "=" => some (assign none)
  | "+=" => some (assign (some .add))
  | "-=" => some (assign (some .sub))
  | "*=" => some (assign (some .mul))
  | "/=" => some (assign (some .div))
  | "%=" => some (assign (some .rem))
  | "&=" => some (assign (some .bitAnd))
  | "|=" => some (assign (some .bitOr))
  | "^=" => some (assign (some .bitXor))
  | "<<=" => some (assign (some .shl))
  | ">>=" => some (assign (some .shr))
  | ">>>=" => some (assign (some .ushr))
  | "?" => some question
  | ":" => some colon
  | _ => none

theorem ofSymbol_symbol {sign : Connective} (valid : sign.Valid) : ofSymbol sign.symbol = some sign := by
  cases sign with
  | binary op => cases op <;> rfl
  | assign op =>
    cases op with
    | none => rfl
    | some op =>
      have compound := valid op rfl
      cases op <;> first | rfl | cases compound
  | question | colon => rfl

theorem noSpace (sign : Connective) : ' ' ∉ sign.symbol.toList := by
  cases sign with
  | binary op => cases op <;> decide
  | assign op =>
    cases op with
    | none => decide
    | some op => cases op <;> decide
  | question | colon => decide

end Connective

inductive Token where
  | name (s : String)
  | between (sign : Connective)
  | before (op : UnOp)
  | behind (op : PostOp)
  | lparen
  | rparen

namespace Token

variable {t : Token} {ts : List Token}

def chars : Token → List Char
  | name s => s.toList
  | between sign => ' ' :: sign.symbol.toList ++ [' ']
  | before op => op.symbol.toList
  | behind op => op.symbol.toList
  | lparen => ['(']
  | rparen => [')']

/-- The operators in front of an operand are those that cannot be taken for another one. -/
def Valid : Token → Prop
  | name s => Text.isName s = true
  | between sign => sign.Valid
  | before op => op = .not ∨ op = .bitNot
  | _ => True

def isName : Token → Bool
  | name _ => true
  | _ => false

/-- No token is empty, and its first character tells whether it is a name. -/
theorem chars_eq_cons (valid : t.Valid) : ∃ c rest, t.chars = c :: rest ∧ Text.isNamePart c = t.isName := by
  cases t with
  | name s =>
    obtain ⟨nonempty, all⟩ := Text.isName_iff.mp valid
    obtain ⟨c, rest, cons⟩ := List.exists_cons_of_ne_nil nonempty
    exact ⟨c, rest, cons, all c (by simp [cons])⟩
  | between sign => exact ⟨' ', _, rfl, rfl⟩
  | before op =>
    rcases valid with rfl | rfl
    · exact ⟨'!', _, rfl, rfl⟩
    · exact ⟨'~', _, rfl, rfl⟩
  | behind op =>
    cases op with
    | inc => exact ⟨'+', _, rfl, rfl⟩
    | dec => exact ⟨'-', _, rfl, rfl⟩
  | lparen => exact ⟨'(', _, rfl, rfl⟩
  | rparen => exact ⟨')', _, rfl, rfl⟩

/-- Reads the token other than a name that a text begins with. -/
def readSign? : List Char → Option (Token × List Char)
  | ' ' :: cs =>
    (Connective.ofSymbol (String.ofList (cs.takeWhile (· != ' ')))).map (between ·, (cs.dropWhile (· != ' ')).tail)
  | '!' :: cs => some (before .not, cs)
  | '~' :: cs => some (before .bitNot, cs)
  | '+' :: '+' :: cs => some (behind .inc, cs)
  | '-' :: '-' :: cs => some (behind .dec, cs)
  | '(' :: cs => some (lparen, cs)
  | ')' :: cs => some (rparen, cs)
  | _ => none

/-- Reads the token that a text begins with. A name is as long as it can be. -/
def read? (cs : List Char) : Option (Token × List Char) :=
  match cs.takeWhile Text.isNamePart with
  | [] => readSign? cs
  | part => some (name (String.ofList part), cs.dropWhile Text.isNamePart)

theorem readSign?_between {sign : Connective} (valid : sign.Valid) (rest : List Char) :
    readSign? (' ' :: sign.symbol.toList ++ ' ' :: rest) = some (between sign, rest) := by
  have noSpace : ∀ c ∈ sign.symbol.toList, (c != ' ') = true := by
    intro c member
    rw [bne_iff_ne]
    rintro rfl
    exact sign.noSpace member
  rw [List.cons_append, readSign?, List.takeWhile_append_of_pos noSpace, List.dropWhile_append_of_pos noSpace]
  simp [String.ofList_toList, Connective.ofSymbol_symbol valid]

theorem readSign?_chars (valid : t.Valid) (noName : t.isName = false) (rest : List Char) :
    readSign? (t.chars ++ rest) = some (t, rest) := by
  cases t with
  | name => cases noName
  | between sign =>
    rw [chars, List.append_assoc]
    exact readSign?_between valid rest
  | before op => rcases valid with rfl | rfl <;> rfl
  | behind op => cases op <;> rfl
  | lparen | rparen => rfl

/-- A token is read back unless the text behind a name goes on with it. -/
theorem read?_chars {rest : List Char} (valid : t.Valid)
    (ends : t.isName = true → ∀ c ∈ rest.head?, Text.isNamePart c = false) : read? (t.chars ++ rest) = some (t, rest) := by
  obtain ⟨c, cs, cons, kind⟩ := chars_eq_cons valid
  cases isName : t.isName with
  | true =>
    cases t with
    | name s =>
      obtain ⟨taken, left⟩ := Text.takeWhile_until (Text.isName_iff.mp valid).2 (ends rfl)
      rw [chars] at cons
      rw [chars, read?, taken, left, cons]
      simp only
      rw [← cons, String.ofList_toList]
    | _ => cases isName
  | false =>
    have none : (t.chars ++ rest).takeWhile Text.isNamePart = [] := by
      rw [cons, List.cons_append, List.takeWhile_cons_of_neg (by simp [kind, isName])]
    rw [read?, none, readSign?_chars valid isName]

/-- Tokens that can be told apart in a text: no name follows a name. -/
structure Written (ts : List Token) : Prop where
  valid : ∀ t ∈ ts, t.Valid
  apart : ts.IsChain fun a b => a.isName = true → b.isName = false

theorem Written.nil : Written [] := ⟨by simp, .nil⟩

theorem Written.singleton (valid : t.Valid) : Written [t] where
  valid := by simpa using valid
  apart := .singleton t

theorem Written.tail (written : Written (t :: ts)) : Written ts where
  valid t member := written.valid t (.tail _ member)
  apart := written.apart.tail

theorem Written.cons (written : Written ts) (valid : t.Valid) (noName : t.isName = false) : Written (t :: ts) where
  valid := List.forall_mem_cons.mpr ⟨valid, written.valid⟩
  apart := written.apart.cons fun _ _ isName => absurd isName (by simp [noName])

/-- A token other than a name keeps apart what stands on its two sides. -/
theorem Written.join {ts' : List Token} (left : Written ts) (right : Written ts') (valid : t.Valid)
    (noName : t.isName = false) : Written (ts ++ t :: ts') where
  valid := List.forall_mem_append.mpr ⟨left.valid, (right.cons valid noName).valid⟩
  apart := by
    refine left.apart.append (right.cons valid noName).apart ?_
    intro a _ b head _
    cases head
    exact noName

/-- A name ends where the next token begins. -/
theorem Written.ends (written : Written (t :: ts)) (isName : t.isName = true) :
    ∀ c ∈ (ts.flatMap chars).head?, Text.isNamePart c = false := by
  cases ts with
  | nil => simp
  | cons next rest =>
    obtain ⟨first, cs, cons, kind⟩ := chars_eq_cons (written.tail.valid next (.head _))
    intro c head
    rw [List.flatMap_cons, cons] at head
    cases head
    rw [kind]
    exact (List.isChain_cons_cons.mp written.apart).1 isName

theorem Written.read? (written : Written (t :: ts)) :
    Token.read? ((t :: ts).flatMap chars) = some (t, ts.flatMap chars) :=
  read?_chars (written.valid t (.head _)) written.ends

/-- The text of tokens tells them. -/
theorem Written.flatMap_chars_inj {ts' : List Token} (written : Written ts) (written' : Written ts')
    (same : ts.flatMap chars = ts'.flatMap chars) : ts = ts' := by
  induction ts generalizing ts' with
  | nil =>
    cases ts' with
    | nil => rfl
    | cons t' rest' =>
      have there := written'.read?
      rw [← same] at there
      cases there
  | cons t rest ih =>
    have here := written.read?
    rw [same] at here
    cases ts' with
    | nil => cases here
    | cons t' rest' =>
      obtain ⟨rfl, same'⟩ := Prod.mk.inj (Option.some.inj (here.symm.trans written'.read?))
      rw [ih written.tail written'.tail same']

end Token

namespace Expr

variable {e : Expr}

/-- Variables, and operators on them, all but the negative sign and the increments in front of an operand. -/
inductive Symbolic : Expr → Prop
  | var {name : String} : Text.isName name = true → Symbolic (.var name)
  | binary (op : BinOp) {lhs rhs : Expr} : Symbolic lhs → Symbolic rhs → Symbolic (.binary op lhs rhs)
  | unary {op : UnOp} {e : Expr} : op = .not ∨ op = .bitNot → Symbolic e → Symbolic (.unary op e)
  | post (op : PostOp) {e : Expr} : Symbolic e → Symbolic (.post op e)
  | conditional {cond yes no : Expr} : Symbolic cond → Symbolic yes → Symbolic no → Symbolic (.conditional cond yes no)
  | assign {op : Option BinOp} {target value : Expr} : (∀ o ∈ op, o.hasCompoundForm = true) → Symbolic target →
      Symbolic value → Symbolic (.assign target op value)

/-- Parentheses around an operand that binds looser than `least`. -/
def enclose (least precedence : Nat) (ts : List Token) : List Token :=
  if precedence < least then .lparen :: ts ++ [.rparen] else ts

/-- The tokens of an expression of variables and operators. -/
def tokens : Expr → List Token
  | var name => [.name name]
  | binary op lhs rhs =>
    enclose op.precedence lhs.precedence lhs.tokens ++
      .between (.binary op) :: enclose (op.precedence + 1) rhs.precedence rhs.tokens
  | unary op e => .before op :: enclose 13 e.precedence e.tokens
  | post op e => enclose 14 e.precedence e.tokens ++ [.behind op]
  | conditional cond yes no =>
    enclose 3 cond.precedence cond.tokens ++ .between .question :: enclose 3 yes.precedence yes.tokens ++
      .between .colon :: enclose 2 no.precedence no.tokens
  | assign target op value =>
    enclose 15 target.precedence target.tokens ++ .between (.assign op) :: enclose 1 value.precedence value.tokens
  | _ => []

theorem toList_operand {s : String} {ts : List Token} (same : s.toList = ts.flatMap Token.chars) (least precedence : Nat) :
    (operand least precedence s).toList = (enclose least precedence ts).flatMap Token.chars := by
  unfold operand enclose
  split <;> simp [same, Token.chars]

theorem Symbolic.toList_text (symbolic : e.Symbolic) : e.text.toList = e.tokens.flatMap Token.chars := by
  induction symbolic with
  | var => simp [text, tokens, Token.chars]
  | binary op _ _ left right =>
    simp [text, tokens, toList_operand left, toList_operand right, Token.chars, Connective.symbol]
  | unary _ _ ih => simp [text, tokens, toList_operand ih, Token.chars]
  | post _ _ ih => simp [text, tokens, toList_operand ih, Token.chars]
  | conditional _ _ _ cond yes no =>
    simp [text, tokens, toList_operand cond, toList_operand yes, toList_operand no, Token.chars, Connective.symbol]
  | @assign op _ _ _ _ _ target value =>
    cases op <;>
      simp [text, tokens, toList_operand target, toList_operand value, Token.chars, Connective.symbol]

theorem written_enclose {ts : List Token} (written : Token.Written ts) (least precedence : Nat) :
    Token.Written (enclose least precedence ts) := by
  unfold enclose
  split
  · have closed : Token.Written (ts ++ [.rparen]) := written.join .nil trivial rfl
    exact closed.cons trivial rfl
  · exact written

theorem Symbolic.written (symbolic : e.Symbolic) : Token.Written e.tokens := by
  induction symbolic with
  | var name => exact .singleton name
  | binary op _ _ left right => exact (written_enclose left _ _).join (written_enclose right _ _) trivial rfl
  | unary op _ ih => exact (written_enclose ih _ _).cons op rfl
  | post _ _ ih => exact (written_enclose ih _ _).join .nil trivial rfl
  | conditional _ _ _ cond yes no =>
    refine Token.Written.join ?_ (written_enclose no _ _) trivial rfl
    exact (written_enclose cond _ _).join (written_enclose yes _ _) trivial rfl
  | assign op _ _ target value => exact (written_enclose target _ _).join (written_enclose value _ _) op rfl

/-- Equal texts are made of equal tokens. -/
theorem Symbolic.tokens_eq {e' : Expr} (symbolic : e.Symbolic) (symbolic' : e'.Symbolic) (same : e.text = e'.text) :
    e.tokens = e'.tokens :=
  symbolic.written.flatMap_chars_inj symbolic'.written (by rw [← symbolic.toList_text, ← symbolic'.toList_text, same])

end Expr

end Unstack
