import Unstack.Graph.Flow

namespace Unstack

/-- The class literal behind a cached lookup: the cache is compared with `null`, and the arm for `null`
assigns it the result of the lookup by name. -/
def Expr.cachedClass? (cond whenTrue whenFalse : Expr) : Option Expr :=
  match cond with
  | .binary op _ .null =>
    let assigned? := match op with
      | .eq => some whenTrue
      | .ne => some whenFalse
      | _ => none
    match assigned? with
    | some (.assign _ _ (.call _ "class$" [.string name])) => (JavaType.ofClassName? name).map .classOf
    | _ => none
  | _ => none

/-- The value of a branch on `cond` whose arms give the two values. -/
def Expr.ofArms (cond whenTrue whenFalse : Expr) : Expr :=
  match whenTrue, whenFalse with
  | .bool true, .bool false => cond
  | .bool false, .bool true => cond.negate
  | _, _ => (cond.cachedClass? whenTrue whenFalse).getD (.conditional cond whenTrue whenFalse)

/-- The condition that two branches in a row test together, if the second stands on one side of the first
and both share a target: the side that skips the second decides the operator. -/
def Expr.fused? (first second : Expr) (b whenTrue whenFalse firstTrue firstFalse : BlockId) :
    Option Expr :=
  if firstTrue = b && firstFalse ≠ b then
    if firstFalse = whenTrue then some (.binary .or first.negate second)
    else if firstFalse = whenFalse then some (.binary .and first second)
    else none
  else if firstFalse = b && firstTrue ≠ b then
    if firstTrue = whenTrue then some (.binary .or first second)
    else if firstTrue = whenFalse then some (.binary .and first.negate second)
    else none
  else none

namespace Graph

/-- The only predecessor of a block that does nothing but leave one value for its successor. -/
def armHead? (g : Graph) (b : BlockId) : Checked (Option BlockId) := do
  let block ← g.block b
  match ← g.succ b, ← g.preds b with
  | some _, [head] =>
    return if block.stack.length = 1 && block.stmts.isEmpty && block.ops.isEmpty then some head else none
  | _, _ => return none

def lowest (g : Graph) (best : Option BlockId) (b : BlockId) : Checked (Option BlockId) := do
  match best with
  | none => return some b
  | some c => return if (← g.block b).postorder < (← g.block c).postorder then some b else some c

def condition? (g : Graph) (b : BlockId) : Checked (Option (Expr × BlockId × BlockId)) := do
  match (← g.block b).lastStmt?, ← g.trueSucc b, ← g.falseSucc b with
  | some (.branch cond), some whenTrue, some whenFalse => return some (cond, whenTrue, whenFalse)
  | _, _, _ => return none

/-- Takes away the branch at the end of `head` and its two arms, and lets `b` go on with the value. -/
def foldArms (g : Graph) (b head whenTrue whenFalse : BlockId) (value : Expr) : Checked Graph := do
  let g ← g.modifyBlock head fun block => { block with stmts := block.stmts.dropLast }
  let g ← g.removeBlock whenTrue
  let g ← g.removeBlock whenFalse
  if (← g.preds b).isEmpty then
    -- these were the last arms: the head becomes the front of `b`
    let g ← g.joinPred b head
    g.pushValue b value
  else
    let g ← g.pushValue head value
    return (← g.setSucc head b).2

/-- Folds a branch whose two arms each leave one value for `b` into a conditional expression. All
predecessors of `b` have to be such arms; the branch is the lowest of theirs. -/
def foldConditional (g : Graph) (b : BlockId) : Checked (Option Graph) := do
  let preds ← g.preds b
  if preds.length < 2 then return none
  else
    let heads ← preds.mapM g.armHead?
    if heads.any Option.isNone then return none
    else
      match ← heads.reduceOption.foldlM g.lowest none with
      | none => return none
      | some head =>
        match ← g.condition? head with
        | none => return none
        | some (cond, whenTrue, whenFalse) =>
          if whenTrue = whenFalse || !preds.contains whenTrue || !preds.contains whenFalse then return none
          else
            match (← g.block whenTrue).top?, (← g.block whenFalse).top? with
            | some yes, some no =>
              return some (← g.foldArms b head whenTrue whenFalse (cond.ofArms yes.expr no.expr))
            | _, _ => return none

def changeCond (cond : Expr) (stmts : List Stmt) : List Stmt :=
  match stmts.getLast? with
  | some (.branch _) => stmts.dropLast ++ [.branch cond]
  | _ => stmts

/-- Fuses a block that is nothing but a branch with the branch in front of it. -/
def fuseBranches (g : Graph) (b : BlockId) : Checked (Option Graph) := do
  match ← g.preds b with
  | [pred] =>
    let block ← g.block b
    if block.stmts.length ≠ 1 || !block.ops.isEmpty || !block.stack.isEmpty || pred = b then return none
    else
      match ← g.condition? pred, ← g.condition? b with
      | some (first, firstTrue, firstFalse), some (second, whenTrue, whenFalse) =>
        match Expr.fused? first second b whenTrue whenFalse firstTrue firstFalse with
        | none => return none
        | some cond =>
          let g ← g.modifyBlock pred fun block => { block with stmts := changeCond cond block.stmts }
          let g ← g.modifyBlock b fun block => { block with stmts := block.stmts.drop 1 }
          return some (← g.joinPred b pred)
      | _, _ => return none
  | _ => return none

/-- The class name in the operations that fill a cached class literal:
drop the empty cache, push the name, look the class up, copy it and put it into the cache. -/
def cachedName? (ops : List Operation) : Option String :=
  let instrs := ops.map Operation.instr
  let body := match instrs.getLast? with
    | some (.goto _) => instrs.dropLast
    | _ => instrs
  match body with
  | [.pop _, .push _ (.string name), .invoke .., .dup _, .put _] => some name
  | _ => none

/-- Folds a cached class literal whose second block could not be converted because it drops the value that
the first block leaves. -/
def foldCachedClass (g : Graph) (b : BlockId) : Checked (Option Graph) := do
  match cachedName? (← g.block b).ops, ← g.succ b, ← g.preds b with
  | some name, some follow, [head] =>
    match ← g.condition? head, JavaType.ofClassName? name with
    | some (_, whenTrue, whenFalse), some t =>
      let shaped := (whenFalse = b && whenTrue = follow) || (whenTrue = b && whenFalse = follow)
      if !shaped || (← g.preds follow).any fun p => p ≠ head && p ≠ b then return none
      else
        let g ← g.modifyBlock head fun block =>
          { block with stack := block.stack.tail, stmts := block.stmts.dropLast }
        let g ← g.removeBlock b
        let g ← g.joinPred follow head
        return some (← g.pushValue follow (.classOf t))
    | _, _ => return none
  | _, _, _ => return none

end Graph

end Unstack
