import Unstack.ClassFacts
import Unstack.Graph.Flow
import Unstack.Number.Word
import Unstack.Text.Unit16

namespace Unstack

/-- The register whose string is hashed by the two operations in front of a switch. -/
def hashedReg? (ops : Array Operation) (pc : Nat) : Option Nat := do
  if pc < 2 then none
  else
    match (← ops[pc - 1]?).instr, (← ops[pc - 2]?).instr with
    | .invoke method _, .load _ reg =>
      if method.name = "hashCode" && method.params.isEmpty && method.owner = .string then some reg else none
    | _, _ => none

/-- The enum whose `ordinal` is among the eight operations in front of a switch, the nearest one. -/
def ordinalOwner? (ops : Array Operation) (pc : Nat) : Option JavaType :=
  ((ops.toList.take pc).reverse.take 8).findSome? fun o =>
    match o.instr with
    | .invoke method _ => if method.name = "ordinal" && method.params.isEmpty then some method.owner else none
    | _ => none

/-- The value of a slot in the operations that test a string. -/
inductive TestValue where
  | reg (r : Nat)
  | literal (value : Literal)
  | equals (s : String)

def MethodRef.isEquals (m : MethodRef) : Bool :=
  m.name == "equals" && m.params == [.anyObject] && m.result == .boolean

/-- The string that a block tests in its jump, with the operations before the jump executed. The string in
the register is compared with a literal of the given hash. -/
def testedString? (reg : Nat) (hash : Int) : List TestValue → List Operation → Option (String × Relation)
  | _, [] => none
  | stack, o :: rest =>
    match o.instr with
    | .load _ r => testedString? reg hash (.reg r :: stack) rest
    | .push _ value => testedString? reg hash (.literal value :: stack) rest
    | .invoke method _ =>
      match stack with
      | .literal (.string s) :: .reg r :: below =>
        if method.isEquals && Text.stringHash s = hash && r = reg then
          testedString? reg hash (.equals s :: below) rest
        else none
      | _ => none
    | .jumpZero _ relation _ =>
      match stack with
      | .equals s :: _ => some (s, relation)
      | _ => none
    | _ => none

namespace Graph

def jumpOn? (g : Graph) (b : BlockId) : Checked (Option BlockId) := do
  let block ← g.block b
  let onlyJumps := block.stmts.isEmpty && block.ops.all fun o =>
    match o.instr with
    | .goto _ => true
    | _ => false
  match ← g.succ b with
  | some next => return if onlyJumps && block.outs.length = 1 then some next else none
  | none => return none

/-- Skips blocks that only jump on, at most as many as given. -/
def skipJumps (g : Graph) : Nat → BlockId → Checked BlockId
  | 0, b => return b
  | left + 1, b => do
    match ← g.jumpOn? b with
    | some next => g.skipJumps left next
    | none => return b

def destination (g : Graph) (b : BlockId) : Checked BlockId := g.skipJumps g.liveCount b

/-- The strings with one hash and the blocks they lead to, along the chain of tests that starts at a block
and ends where the switch goes when no label fits. -/
def testChain? (g : Graph) (reg : Nat) (hash : Int) (fallbackEnd : BlockId) :
    Nat → BlockId → Checked (Option (List (String × BlockId)))
  | 0, _ => return none
  | fuel + 1, b => do
    match testedString? reg hash [] (← g.block b).ops with
    | none => return none
    | some (s, relation) =>
      let whenTrue ← g.trueSucc b
      let whenFalse ← g.falseSucc b
      match if relation = .eq then (whenFalse, whenTrue) else (whenTrue, whenFalse) with
      | (some matched, some other) =>
        if (← g.destination other) = fallbackEnd then return some [(s, matched)]
        else
          match ← g.testChain? reg hash fallbackEnd fuel other with
          | some more => return some ((s, matched) :: more)
          | none => return none
      | _ => return none

/-- The strings behind the labels of one edge of a switch on hashes. -/
def labelStrings? (g : Graph) (reg : Nat) (fallbackEnd target : BlockId) :
    List CaseLabel → Checked (Option (List (String × BlockId)))
  | [] => return some []
  | .fallback :: rest => g.labelStrings? reg fallbackEnd target rest
  | .int hash :: rest => do
    match ← g.testChain? reg hash fallbackEnd (g.ops.size + 1) target with
    | none => return none
    | some found =>
      match ← g.labelStrings? reg fallbackEnd target rest with
      | some more => return some (found ++ more)
      | none => return none
  | _ => return none

def switchStrings? (g : Graph) (reg : Nat) (fallbackEnd : BlockId) :
    List (EdgeId × Edge) → Checked (Option (List (String × BlockId)))
  | [] => return some []
  | (_, edge) :: rest => do
    match ← g.labelStrings? reg fallbackEnd edge.target (edge.kind.labels?.getD []) with
    | none => return none
    | some found =>
      match ← g.switchStrings? reg fallbackEnd rest with
      | some more => return some (found ++ more)
      | none => return none

/-- Cases by the index of their target, in ascending order. -/
abbrev CaseTable := List (Nat × BlockId × List CaseLabel)

/-- Adds a label to the case at an index; the first target with that index stays. -/
def addCase (pc : Nat) (target : BlockId) (label : CaseLabel) : CaseTable → CaseTable
  | [] => [(pc, target, [label])]
  | (other, first, labels) :: rest =>
    if pc < other then (pc, target, [label]) :: (other, first, labels) :: rest
    else if pc = other then (other, first, labels ++ [label]) :: rest
    else (other, first, labels) :: addCase pc target label rest

def stringCases (g : Graph) (strings : List (String × BlockId)) (fallback : BlockId) : Checked CaseTable := do
  let table ← strings.foldlM
    (fun table (s, target) => do return addCase (← g.block target).pc target (.string s) table) []
  return addCase (← g.block fallback).pc fallback .fallback table

/-- Replaces a switch on the hash of the string in a register by one on the string. The blocks that test
for equality are no longer reached and are removed. -/
def recoverStringSwitch (g : Graph) (head : BlockId) (reg : Nat) : Checked (Option Graph) := do
  match ← g.fallbackOut head with
  | none => return none
  | some (_, fallback) =>
    let fallbackEnd ← g.destination fallback.target
    let cases := (← g.outs head).filter fun (_, edge) => edge.kind.isSwitchCase
    match ← g.switchStrings? reg fallbackEnd cases with
    | none | some [] => return none
    | some strings =>
      let table ← g.stringCases strings fallback.target
      let g ← table.foldlM (fun g (_, target, labels) => do return (← g.addSwitchCase head target labels).2) g
      let g ← g.removeEdges (cases.map Prod.fst)
      return some (← g.removeUnreachable).2

end Graph

/-- The parts of the discriminant of a switch on an enum: the class and the member that map ordinals to
case indexes, and the enum value. -/
structure EnumSwitch where
  owner : JavaType
  member : String
  value : Expr

def Expr.ordinalMap? : Expr → Option (JavaType × String)
  | .field (.typeName owner) name => if "$SwitchMap$".isPrefixOf name then some (owner, name) else none
  | .call (.typeName owner) name [] => if "$SWITCH_TABLE$".isPrefixOf name then some (owner, name) else none
  | _ => none

def Expr.enumSwitch? : Expr → Option EnumSwitch
  | .index array (.call value "ordinal" []) =>
    (Expr.ordinalMap? array).map fun (owner, member) => { owner, member, value }
  | _ => none

def CaseLabel.named (names : List (Int × String)) : CaseLabel → CaseLabel
  | .int i =>
    match names.lookup i with
    | some name => .enumConstant name
    | none => .int i
  | label => label

def CaseLabel.hasName (names : List (Int × String)) : CaseLabel → Bool
  | .int i => (names.lookup i).isSome
  | _ => true

def EdgeKind.named (names : List (Int × String)) : EdgeKind → EdgeKind
  | .switchCase labels => .switchCase (labels.map (CaseLabel.named names))
  | kind => kind

/-- Replaces case indexes by the names of enum constants, if all of them are known. -/
def Graph.recoverEnumSwitch (g : Graph) (head : BlockId) (switch : EnumSwitch) (enumType : JavaType)
    (facts : ClassFacts) : Checked (Option Graph) := do
  match facts.enumMap? switch.owner switch.member enumType with
  | none => return none
  | some names =>
    let cases := (← g.outs head).filter fun (_, edge) => edge.kind.isSwitchCase
    let complete := cases.all fun (_, edge) => (edge.kind.labels?.getD []).all (CaseLabel.hasName names)
    if complete then
      return some (← cases.foldlM
        (fun g (e, _) => g.modifyEdge e fun edge => { edge with kind := edge.kind.named names }) g)
    else return none

/-- The entry that four operations write into a map of ordinals: read a constant of the enum, call
`ordinal`, push the case index, store. An index that does not fit 32 bits gives no name. -/
def mapCell? (enumType : JavaType) : List Operation → Option (Option (Int × String))
  | a :: b :: c :: d :: _ =>
    match a.instr, b.instr, c.instr, d.instr with
    | .get field, .invoke method _, .push _ (.int index), .arrayStore _ =>
      if field.type = enumType && method.owner = enumType && method.name = "ordinal" && method.params.isEmpty
      then some (if fitsInt32 index then some (index, field.name) else none)
      else none
    | _, _, _, _ => none
  | _ => none

/-- Reads the map from case indexes to enum constants off the operations that fill it. -/
def enumNames (enumType : JavaType) : Nat → List (Int × String) → List Operation → List (Int × String)
  | 0, names, _ => names
  | _, names, [] => names
  | fuel + 1, names, o :: rest =>
    match mapCell? enumType (o :: rest) with
    | some entry =>
      let names := match entry with
        | some (index, name) => insertName index name names
        | none => names
      enumNames enumType fuel names (rest.drop 3)
    | none => enumNames enumType fuel names rest

def extractEnumNames (ops : List Operation) (enumType : JavaType) : List (Int × String) :=
  enumNames enumType ops.length [] ops

end Unstack
