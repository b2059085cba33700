import Unstack.Proofs.Recovery.Switching

namespace Unstack

variable {relation : Relation}

/-- The relation holds between a value and zero. -/
def Relation.holdsOf (value : Int) : Relation → Bool
  | eq => value == 0
  | ne => value != 0
  | lt => value < 0
  | ge => 0 ≤ value
  | gt => 0 < value
  | le => value ≤ 0

/-- The literal and the relation of operations that do nothing but compare the string in a register with the literal and
jump on the answer. -/
def comparison? (reg : Nat) : List Operation → Option (String × Relation)
  | [load, push, call, jump] =>
    match load.instr, push.instr, call.instr, jump.instr with
    | .load _ r, .push _ (.string s), .invoke method _, .jumpZero _ relation _ =>
      if r = reg ∧ method.isEquals then some (s, relation) else none
    | _, _, _, _ => none
  | _ => none

theorem testedString?_of_comparison {reg : Nat} {ops : List Operation} {s : String}
    (compares : comparison? reg ops = some (s, relation)) (hash : Int) :
    testedString? reg hash [] ops = if Text.stringHash s = hash then some (s, relation) else none := by
  unfold comparison? at compares
  split at compares
  · split at compares
    · rename_i load push call jump _ _ _ _ _ _ _ _ _ isLoad isPush isCall isJump
      split at compares
      · rename_i fits
        cases compares
        simp only [testedString?, isLoad, isPush, isCall, isJump, fits, Bool.true_and]
        by_cases hashed : Text.stringHash s = hash <;> simp [hashed]
      · cases compares
    · cases compares
  · cases compares

namespace EdgeKind

def labels (kind : EdgeKind) : List CaseLabel := kind.labels?.getD []

def keys (kind : EdgeKind) : List Int :=
  kind.labels.filterMap fun label =>
    match label with
    | .int key => some key
    | _ => none

end EdgeKind

namespace Graph

variable {g : Graph} {reg : Nat} {head fallback b : BlockId} {hash : Int} {found : List (String × BlockId)}

/-- The block compares the string in the register with a literal and does nothing else. -/
def Compares (g : Graph) (reg : Nat) (b : BlockId) (s : String) (relation : Relation) : Prop :=
  ∃ block, g.blocks[b]? = some block ∧ comparison? reg block.ops = some (s, relation)

/-- Where a block that compares strings goes if they are equal, and where if they are not: it jumps if the relation holds
of the answer, which is one or zero. -/
def Answers (g : Graph) (relation : Relation) (b : BlockId) (equal : Bool) (next : BlockId) : Prop :=
  g.targetOf (if relation.holdsOf equal.toInt then .whenTrue else .whenFalse) b = .ok (some next)

/-- The edge leaves the head of a switch, carries the label and leads to the target. -/
def Bears (g : Graph) (e : EdgeId) (head : BlockId) (label : CaseLabel) (target : BlockId) : Prop :=
  g.Joins e head target ∧ ∃ edge, g.edges[e]? = some edge ∧ label ∈ edge.kind.labels

/-- A label of the switch leads to the target. -/
def Labels (g : Graph) (head : BlockId) (label : CaseLabel) (target : BlockId) : Prop :=
  ∃ e, g.Bears e head label target

/-- A chain of tests for strings with one hash comes to the block. It is over where control goes to the block that the
switch leads to when no label fits. -/
inductive Visited (g : Graph) (reg : Nat) (head fallback : BlockId) (hash : Int) : BlockId → Prop where
  | label {b : BlockId} : g.Labels head (.int hash) b → Visited g reg head fallback hash b
  | onward {b next : BlockId} {s : String} {relation : Relation} : Visited g reg head fallback hash b →
    g.Compares reg b s relation → g.Answers relation b false next → g.destination next ≠ g.destination fallback →
    Visited g reg head fallback hash next

/-- The tests for a string from a block on lead to the second block. -/
inductive Follows (g : Graph) (reg : Nat) (fallback : BlockId) (v : String) : BlockId → BlockId → Prop where
  | equal {b t : BlockId} {relation : Relation} : g.Compares reg b v relation → g.Answers relation b true t →
    Follows g reg fallback v b t
  | ended {b t : BlockId} {s : String} {relation : Relation} : g.Compares reg b s relation → s ≠ v →
    g.Answers relation b false t → g.destination t = g.destination fallback → Follows g reg fallback v b t
  | onward {b next t : BlockId} {s : String} {relation : Relation} : g.Compares reg b s relation → s ≠ v →
    g.Answers relation b false next → g.destination next ≠ g.destination fallback → Follows g reg fallback v next t →
    Follows g reg fallback v b t

/-- Where a switch on hashes leads a string: to the tests behind the label for its hash, or else to the fallback. -/
def Dispatches (g : Graph) (reg : Nat) (head fallback : BlockId) (v : String) (t : BlockId) : Prop :=
  (∃ b, g.Labels head (.int (Text.stringHash v)) b ∧ g.Follows reg fallback v b t) ∨
    (∀ b, ¬ g.Labels head (.int (Text.stringHash v)) b) ∧ t = fallback

/-- Where a switch on strings leads a string. -/
def Selects (g : Graph) (head : BlockId) (v : String) (t : BlockId) : Prop :=
  g.Labels head (.string v) t ∨ (∀ b, ¬ g.Labels head (.string v) b) ∧ g.Labels head .fallback t

theorem Compares.unique {s s' : String} {relation' : Relation} (first : g.Compares reg b s relation)
    (second : g.Compares reg b s' relation') : s = s' ∧ relation = relation' := by
  obtain ⟨block, found, compares⟩ := first
  obtain ⟨block', found', compares'⟩ := second
  cases found.some_unique found'
  exact Prod.mk.inj (compares.some_unique compares')

/-- A test leads each of its answers to one block. -/
theorem Answers.unique {equal : Bool} {next next' : BlockId} (first : g.Answers relation b equal next)
    (second : g.Answers relation b equal next') : next = next' :=
  Option.some.inj (first.ok_unique second)

/-- The tests from a block on, each with the block that it leads to. -/
inductive Chain (g : Graph) (reg : Nat) (fallback : BlockId) : BlockId → List (String × BlockId) → Prop where
  | last {b matched other : BlockId} {s : String} {relation : Relation} : g.Compares reg b s relation →
    g.Answers relation b true matched → g.Answers relation b false other → g.destination other = g.destination fallback →
    Chain g reg fallback b [(s, matched)]
  | cons {b matched other : BlockId} {s : String} {relation : Relation} {more : List (String × BlockId)} :
    g.Compares reg b s relation → g.Answers relation b true matched → g.Answers relation b false other →
    g.destination other ≠ g.destination fallback → Chain g reg fallback other more →
    Chain g reg fallback b ((s, matched) :: more)

/-- Every block that a chain comes to compares strings, and it asks whether the answer is zero. -/
def TestsStrings (g : Graph) (reg : Nat) (head fallback : BlockId) : Prop :=
  ∀ hash b, g.Visited reg head fallback hash b →
    ∃ s relation, g.Compares reg b s relation ∧ (relation = .eq ∨ relation = .ne)

/-- The two ways of a comparison are told apart as the search does it. -/
theorem answers_of_sides (order : relation = .eq ∨ relation = .ne) {whenTrue whenFalse : Option BlockId}
    (atTrue : g.trueSucc b = .ok whenTrue) (atFalse : g.falseSucc b = .ok whenFalse) {matched other : BlockId}
    (sides : (if relation = .eq then (whenFalse, whenTrue) else (whenTrue, whenFalse)) = (some matched, some other)) :
    g.Answers relation b true matched ∧ g.Answers relation b false other := by
  rcases order with rfl | rfl
  · cases sides
    exact ⟨atFalse, atTrue⟩
  · cases sides
    exact ⟨atTrue, atFalse⟩

/-- A search for the strings with one hash follows the chain of their tests. -/
theorem testChain?_chain (tests : g.TestsStrings reg head fallback) {fallbackEnd : BlockId}
    (atEnd : g.destination fallback = .ok fallbackEnd) {fuel : Nat} (visited : g.Visited reg head fallback hash b)
    (run : g.testChain? reg hash fallbackEnd fuel b = .ok (some found)) :
    g.Chain reg fallback b found ∧ ∀ entry ∈ found, Text.stringHash entry.1 = hash := by
  induction fuel generalizing b found with
  | zero => cases run
  | succ fuel ih =>
    obtain ⟨s, relation, compares, order⟩ := tests hash b visited
    have ⟨block, atBlock, tested⟩ := compares
    rw [testChain?, block_eq_ok.mpr atBlock, ok_bind, testedString?_of_comparison tested] at run
    split at run
    · cases run
    rename_i s' relation' fits
    split at fits
    · rename_i hashed
      cases fits
      obtain ⟨whenTrue, atTrue, run⟩ := bind_eq_ok.mp run
      obtain ⟨whenFalse, atFalse, run⟩ := bind_eq_ok.mp run
      split at run
      · rename_i matched other sides
        obtain ⟨yes, no⟩ := answers_of_sides order atTrue atFalse sides
        obtain ⟨last, arrives, run⟩ := bind_eq_ok.mp run
        split at run
        · rename_i same
          cases run
          refine ⟨.last compares yes no (by rw [arrives, atEnd, same]), fun entry member => ?_⟩
          rw [List.mem_singleton.mp member]
          exact hashed
        · rename_i unlike
          have apart : g.destination other ≠ g.destination fallback := by
            rw [arrives, atEnd]
            exact fun same => unlike (Except.ok.inj same)
          obtain ⟨rest, searched, run⟩ := bind_eq_ok.mp run
          cases rest with
          | none => cases run
          | some more =>
            cases run
            obtain ⟨chain, all⟩ := ih (.onward visited compares no apart) searched
            exact ⟨.cons compares yes no apart chain, List.forall_mem_cons.mpr ⟨hashed, all⟩⟩
      · cases run
    · cases fits

namespace Chain

variable {found found' : List (String × BlockId)}

theorem unique (chain : g.Chain reg fallback b found) (other : g.Chain reg fallback b found') : found = found' := by
  induction chain generalizing found' with
  | last compares yes no ends =>
    cases other with
    | last compares' yes' _ _ =>
      obtain ⟨rfl, rfl⟩ := compares.unique compares'
      rw [yes.unique yes']
    | cons compares' _ no' apart =>
      obtain ⟨rfl, rfl⟩ := compares.unique compares'
      exact absurd (no.unique no' ▸ ends) apart
  | cons compares yes no apart _ ih =>
    cases other with
    | last compares' _ no' ends =>
      obtain ⟨rfl, rfl⟩ := compares.unique compares'
      exact absurd (no'.unique no ▸ ends) apart
    | cons compares' yes' no' _ rest =>
      obtain ⟨rfl, rfl⟩ := compares.unique compares'
      obtain rfl := no.unique no'
      rw [yes.unique yes', ih rest]

/-- What is tested on a chain is tested at a block that it comes to, and a shorter chain starts there. -/
theorem visited (chain : g.Chain reg fallback b found) (comes : g.Visited reg head fallback hash b)
    {entry : String × BlockId} (member : entry ∈ found) :
    ∃ (c : BlockId) (relation : Relation) (rest : List (String × BlockId)), g.Visited reg head fallback hash c ∧
      g.Compares reg c entry.1 relation ∧ g.Answers relation c true entry.2 ∧ g.Chain reg fallback c (entry :: rest) ∧
      rest.length < found.length := by
  induction chain with
  | last compares yes no ends =>
    rw [List.mem_singleton.mp member]
    exact ⟨_, _, [], comes, compares, yes, .last compares yes no ends, by simp⟩
  | @cons _ _ _ _ _ more compares yes no apart chain ih =>
    rcases List.mem_cons.mp member with rfl | later
    · exact ⟨_, _, more, comes, compares, yes, .cons compares yes no apart chain, by simp⟩
    · obtain ⟨c, relation, rest, comes', compares', yes', chain', shorter⟩ := ih (.onward comes compares no apart) later
      exact ⟨c, relation, rest, comes', compares', yes', chain', by simp; omega⟩

/-- Where no literal is tested at two blocks, none is tested twice: a chain that came to a block again would not end. -/
theorem nodup (chain : g.Chain reg fallback b found) (comes : g.Visited reg head fallback hash b)
    (once : ∀ c c' s relation relation', g.Visited reg head fallback hash c → g.Visited reg head fallback hash c' →
      g.Compares reg c s relation → g.Compares reg c' s relation' → c = c') : (found.map Prod.fst).Nodup := by
  induction chain with
  | last => simp
  | @cons b matched other s relation more compares yes no apart chain ih =>
    have comes' := Visited.onward comes compares no apart
    refine List.nodup_cons.mpr ⟨fun again => ?_, ih comes'⟩
    obtain ⟨entry, member, same⟩ := List.mem_map.mp again
    obtain ⟨c, relation', rest, comes'', compares', _, chain', shorter⟩ := chain.visited comes' member
    rw [same] at compares'
    obtain rfl := once b c s relation relation' comes comes'' compares compares'
    have whole := (Chain.cons compares yes no apart chain).unique chain'
    have lengths := congrArg List.length whole
    simp only [List.length_cons] at lengths
    omega

/-- Every string gets through the tests. -/
theorem follows (chain : g.Chain reg fallback b found) (v : String) : ∃ t, g.Follows reg fallback v b t := by
  induction chain with
  | @last b matched other s relation compares yes no ends =>
    by_cases same : s = v
    · exact ⟨matched, .equal (same ▸ compares) yes⟩
    · exact ⟨other, .ended compares same no ends⟩
  | @cons b matched other s relation more compares yes no apart _ ih =>
    by_cases same : s = v
    · exact ⟨matched, .equal (same ▸ compares) yes⟩
    · obtain ⟨t, follows⟩ := ih
      exact ⟨t, .onward compares same no apart follows⟩

/-- The tests lead a string to the block of its literal, or to where the fallback leads if it has none. -/
theorem of_follows (chain : g.Chain reg fallback b found) {v : String} {t : BlockId}
    (follows : g.Follows reg fallback v b t) :
    (v, t) ∈ found ∨ v ∉ found.map Prod.fst ∧ g.destination t = g.destination fallback := by
  induction follows generalizing found with
  | equal compares yes =>
    left
    cases chain with
    | last compares' yes' | cons compares' yes' =>
      obtain ⟨rfl, rfl⟩ := compares.unique compares'
      rw [yes.unique yes']
      exact .head _
  | ended compares unlike no ends =>
    right
    cases chain with
    | last compares' =>
      obtain ⟨rfl, rfl⟩ := compares.unique compares'
      exact ⟨by simpa using Ne.symm unlike, ends⟩
    | cons compares' _ no' apart =>
      obtain ⟨rfl, rfl⟩ := compares.unique compares'
      exact absurd (no.unique no' ▸ ends) apart
  | onward compares unlike no apart _ ih =>
    cases chain with
    | last compares' _ no' ends =>
      obtain ⟨rfl, rfl⟩ := compares.unique compares'
      exact absurd (no'.unique no ▸ ends) apart
    | cons compares' _ no' _ rest =>
      obtain ⟨rfl, rfl⟩ := compares.unique compares'
      obtain rfl := no.unique no'
      refine (ih rest).imp (.tail _) fun outside => ⟨?_, outside.2⟩
      simpa [Ne.symm unlike] using outside.1

end Chain

/-- The strings are those of the chains behind the keys, each key with the block that its chain starts at. -/
structure Reads (g : Graph) (reg : Nat) (fallback : BlockId) (keys : List (Int × BlockId))
    (strings : List (String × BlockId)) : Prop where
  sound (entry : String × BlockId) : entry ∈ strings → ∃ key ∈ keys, Text.stringHash entry.1 = key.1 ∧
    ∃ part, g.Chain reg fallback key.2 part ∧ entry ∈ part
  complete (key : Int × BlockId) : key ∈ keys → ∃ part, g.Chain reg fallback key.2 part ∧ part ⊆ strings
  once : (keys.map Prod.fst).Nodup → (strings.map Prod.fst).Nodup

namespace Reads

variable {keys : List (Int × BlockId)} {strings : List (String × BlockId)}

theorem nil : g.Reads reg fallback [] [] := ⟨by simp, by simp, by simp⟩

theorem of_chain (chain : g.Chain reg fallback b found) (hashed : ∀ entry ∈ found, Text.stringHash entry.1 = hash)
    (once : (found.map Prod.fst).Nodup) : g.Reads reg fallback [(hash, b)] found :=
  ⟨fun entry member => ⟨(hash, b), by simp, hashed entry member, found, chain, member⟩,
    fun key member => ⟨found, by rw [List.mem_singleton.mp member]; exact chain, fun _ => id⟩, fun _ => once⟩

/-- Two lists of keys read together what each of them reads. -/
theorem append {keys' : List (Int × BlockId)} {strings' : List (String × BlockId)}
    (reads : g.Reads reg fallback keys strings) (others : g.Reads reg fallback keys' strings') :
    g.Reads reg fallback (keys ++ keys') (strings ++ strings') := by
  refine ⟨fun entry member => ?_, fun key member => ?_, fun distinct => ?_⟩
  · rcases List.mem_append.mp member with early | late
    · obtain ⟨key, among, rest⟩ := reads.sound entry early
      exact ⟨key, List.mem_append_left _ among, rest⟩
    · obtain ⟨key, among, rest⟩ := others.sound entry late
      exact ⟨key, List.mem_append_right _ among, rest⟩
  · rcases List.mem_append.mp member with early | late
    · obtain ⟨part, chain, inside⟩ := reads.complete key early
      exact ⟨part, chain, List.subset_append_of_subset_left _ inside⟩
    · obtain ⟨part, chain, inside⟩ := others.complete key late
      exact ⟨part, chain, List.subset_append_of_subset_right _ inside⟩
  · rw [List.map_append, List.nodup_append'] at distinct ⊢
    obtain ⟨first, second, apart⟩ := distinct
    refine ⟨reads.once first, others.once second, fun s early late => ?_⟩
    -- a string on both sides would make its hash a key on both sides
    obtain ⟨entry, member, rfl⟩ := List.mem_map.mp early
    obtain ⟨entry', member', same⟩ := List.mem_map.mp late
    obtain ⟨key, among, hashed, _⟩ := reads.sound entry member
    obtain ⟨key', among', hashed', _⟩ := others.sound entry' member'
    rw [same, hashed] at hashed'
    exact apart (List.mem_map_of_mem among) (hashed' ▸ List.mem_map_of_mem among')

theorem key_of_mem (reads : g.Reads reg fallback keys strings) (distinct : (keys.map Prod.fst).Nodup) {v : String}
    {t : BlockId} (member : (v, t) ∈ strings) (among : (Text.stringHash v, b) ∈ keys)
    (chain : g.Chain reg fallback b found) : (v, t) ∈ found := by
  obtain ⟨key, among', hashed, part, chain', inside⟩ := reads.sound _ member
  have same : key = (Text.stringHash v, b) := List.inj_on_of_nodup_map distinct among' among hashed.symm
  rw [same] at chain'
  rwa [← chain'.unique chain]

end Reads

section Search

variable (tests : g.TestsStrings reg head fallback)
  (once : ∀ hash c c' s relation relation', g.Visited reg head fallback hash c → g.Visited reg head fallback hash c' →
    g.Compares reg c s relation → g.Compares reg c' s relation' → c = c')
  {fallbackEnd : BlockId} (atEnd : g.destination fallback = .ok fallbackEnd)

include tests once atEnd

theorem labelStrings?_reads {target : BlockId} {labels : List CaseLabel}
    (leads : ∀ key, .int key ∈ labels → g.Labels head (.int key) target)
    (run : g.labelStrings? reg fallbackEnd target labels = .ok (some found)) :
    g.Reads reg fallback ((EdgeKind.switchCase labels).keys.map (·, target)) found := by
  induction labels generalizing found with
  | nil =>
    cases run
    exact .nil
  | cons label rest ih =>
    have later (key : Int) (member : .int key ∈ rest) := leads key (.tail _ member)
    cases label with
    | fallback => exact ih later run
    | int hash =>
      obtain ⟨first, searched, run⟩ := bind_eq_ok.mp run
      cases first with
      | none => cases run
      | some part =>
        obtain ⟨second, searched', run⟩ := bind_eq_ok.mp run
        cases second with
        | none => cases run
        | some more =>
          cases run
          have comes : g.Visited reg head fallback hash target := .label (leads hash (.head _))
          obtain ⟨chain, hashed⟩ := testChain?_chain tests atEnd comes searched
          exact (Reads.of_chain chain hashed (chain.nodup comes (once hash))).append (ih later searched')
    | _ => cases run

theorem switchStrings?_reads {outs : List (EdgeId × Edge)}
    (leads : ∀ out ∈ outs, ∀ key, .int key ∈ out.2.kind.labels → g.Labels head (.int key) out.2.target)
    (run : g.switchStrings? reg fallbackEnd outs = .ok (some found)) :
    g.Reads reg fallback (outs.flatMap fun out => out.2.kind.keys.map (·, out.2.target)) found := by
  induction outs generalizing found with
  | nil =>
    cases run
    exact .nil
  | cons out rest ih =>
    obtain ⟨first, searched, run⟩ := bind_eq_ok.mp run
    cases first with
    | none => cases run
    | some part =>
      obtain ⟨second, searched', run⟩ := bind_eq_ok.mp run
      cases second with
      | none => cases run
      | some more =>
        cases run
        have here := labelStrings?_reads tests once atEnd (leads out (.head _)) searched
        exact here.append (ih (fun other member => leads other (.tail _ member)) searched')

end Search

end Graph

end Unstack
