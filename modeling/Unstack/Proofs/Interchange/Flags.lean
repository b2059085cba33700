import Unstack.Interchange.Member
import Unstack.Proofs.Interchange.TypeName

namespace Unstack

namespace Text

variable {sep c : Char}

theorem splitAt_of_notMem {cs : List Char} (noSep : sep ∉ cs) : splitAt sep cs = [cs] := by
  induction cs with
  | nil => rfl
  | cons c rest ih =>
    rw [List.mem_cons, not_or] at noSep
    simp only [splitAt, ih noSep.2, if_neg (Ne.symm noSep.1)]

theorem splitAt_ne_nil (sep : Char) (cs : List Char) : splitAt sep cs ≠ [] := by
  unfold splitAt
  split
  · simp
  · split
    · simp
    · split <;> simp

/-- A piece in front of a separator is split off, and the rest is split by itself. -/
theorem splitAt_append {piece : List Char} (noSep : sep ∉ piece) (rest : List Char) :
    splitAt sep (piece ++ sep :: rest) = piece :: splitAt sep rest := by
  induction piece with
  | nil =>
    obtain ⟨first, others, split⟩ := List.exists_cons_of_ne_nil (splitAt_ne_nil sep rest)
    simp only [List.nil_append, splitAt, split, if_true]
  | cons c piece ih =>
    rw [List.mem_cons, not_or] at noSep
    simp only [List.cons_append, splitAt, ih noSep.2, if_neg (Ne.symm noSep.1)]

theorem trim_cons (blank : isBlank c = true) (cs : List Char) : trim (c :: cs) = trim cs := by
  rw [trim, List.dropWhile_cons_of_pos blank, ← trim]

theorem trim_concat {cs : List Char} (noBlank : ∀ c ∈ cs, isBlank c = false) (blank : isBlank c = true) :
    trim (cs ++ [c]) = cs := by
  have reversed : ∀ c ∈ cs.reverse, isBlank c = false := fun c member => noBlank c (List.mem_reverse.mp member)
  cases cs with
  | nil => simp [trim, blank]
  | cons d rest =>
    have first : (d :: rest ++ [c]).dropWhile isBlank = d :: rest ++ [c] :=
      List.dropWhile_cons_of_neg (by simp [noBlank d (.head _)])
    rw [trim, first, List.reverse_append, List.reverse_singleton, List.singleton_append,
      List.dropWhile_cons_of_pos blank, dropWhile_isBlank reversed, List.reverse_reverse]

theorem map_trim_splitAt_cons (blank : isBlank c = true) (other : c ≠ sep) (cs : List Char) :
    (splitAt sep (c :: cs)).map trim = (splitAt sep cs).map trim := by
  obtain ⟨first, others, split⟩ := List.exists_cons_of_ne_nil (splitAt_ne_nil sep cs)
  simp only [splitAt, split, if_neg other, List.map_cons, trim_cons blank]

/-- A piece that stands between bars. -/
def Unbarred (piece : List Char) : Prop := '|' ∉ piece ∧ ∀ c ∈ piece, isBlank c = false

/-- Pieces that are joined by bars come back when the text is split at the bars and trimmed. -/
theorem map_trim_splitAt_intercalate {pieces : List (List Char)} (nonempty : pieces ≠ [])
    (plain : ∀ piece ∈ pieces, Unbarred piece) :
    (splitAt '|' (List.intercalate [' ', '|', ' '] pieces)).map trim = pieces := by
  induction pieces with
  | nil => exact absurd rfl nonempty
  | cons piece rest ih =>
    obtain ⟨noBar, noBlank⟩ := plain piece (.head _)
    cases rest with
    | nil => simp [List.intercalate, splitAt_of_notMem noBar, trim_eq_self noBlank]
    | cons next rest =>
      have noBar' : '|' ∉ piece ++ [' '] := by simpa using noBar
      have joined : List.intercalate [' ', '|', ' '] (piece :: next :: rest) =
          piece ++ [' '] ++ '|' :: ' ' :: List.intercalate [' ', '|', ' '] (next :: rest) := by
        simp [List.intercalate]
      rw [joined, splitAt_append noBar', List.map_cons, trim_concat noBlank (by decide),
        map_trim_splitAt_cons (by decide) (by decide),
        ih (List.cons_ne_nil _ _) fun other member => plain other (.tail _ member)]

end Text

theorem mapM_eq_some_map {α β : Type} {read : α → Option β} {value : α → β} {items : List α}
    (all : ∀ item ∈ items, read item = some (value item)) : items.mapM read = some (items.map value) := by
  induction items with
  | nil => rfl
  | cons item rest ih =>
    obtain ⟨first, others⟩ := List.forall_mem_cons.mp all
    rw [List.mapM_cons, first, ih others]
    rfl

/-- The value of a hexadecimal digit. -/
def hexDigit? (c : Char) : Option Nat :=
  if c.isDigit then some (c.toNat - '0'.toNat)
  else if 'a' ≤ c && c ≤ 'f' then some (c.toNat - 'a'.toNat + 10)
  else if 'A' ≤ c && c ≤ 'F' then some (c.toNat - 'A'.toNat + 10)
  else none

theorem digitChar_of_lt : ∀ d < 16, hexDigit? d.digitChar = some d ∧ d.digitChar ≠ '|' ∧ d.digitChar ≠ '+' ∧
    Text.isBlank d.digitChar = false := by decide

/-- The hexadecimal digits of a number are values below sixteen that make up the number again. -/
theorem toDigits_eq_map (n : Nat) : ∃ values, values ≠ [] ∧ (∀ d ∈ values, d < 16) ∧
    Nat.toDigits 16 n = values.map Nat.digitChar ∧ values.foldl (fun n d => 16 * n + d) 0 = n := by
  induction n using Nat.strongRecOn with
  | ind n ih =>
    by_cases small : n < 16
    · rw [Nat.toDigits_of_lt_base small]
      exact ⟨[n], by simp, by simpa using small, rfl, by simp⟩
    · obtain ⟨values, _, bound, digits, value⟩ := ih (n / 16) (by omega)
      rw [Nat.toDigits_of_base_le (by decide) (by omega)]
      refine ⟨values ++ [n % 16], by simp, ?_, by rw [digits, List.map_append]; rfl, ?_⟩
      · intro d member
        rcases List.mem_append.mp member with member | member
        · exact bound d member
        · rw [List.mem_singleton.mp member]
          omega
      · rw [List.foldl_append, value]
        simp only [List.foldl_cons, List.foldl_nil]
        omega

theorem hex_eq_toDigits (n : Nat) : Text.hex 1 n = Nat.toDigits 16 n := by
  have length := Nat.length_toDigits_pos (b := 16) (n := n)
  rw [Text.hex, show 1 - (Nat.toDigits 16 n).length = 0 by omega, List.replicate_zero, List.nil_append]

theorem mem_hex {n : Nat} {c : Char} (member : c ∈ Text.hex 1 n) : ∃ d < 16, c = d.digitChar := by
  obtain ⟨values, _, bound, digits, _⟩ := toDigits_eq_map n
  rw [hex_eq_toDigits, digits] at member
  obtain ⟨d, inside, rfl⟩ := List.mem_map.mp member
  exact ⟨d, bound d inside, rfl⟩

/-- A word is read back from the digits that are printed for it. -/
theorem hexWord?_hex {n : Nat} (bound : n < 65536) : hexWord? (Text.hex 1 n) = some (UInt16.ofNat n) := by
  obtain ⟨values, nonempty, small, digits, value⟩ := toDigits_eq_map n
  have read : (Text.hex 1 n).mapM hexDigit? = some values := by
    rw [hex_eq_toDigits, digits, List.mapM_map]
    exact (mapM_eq_some_map fun d member => (digitChar_of_lt d (small d member)).1).trans (by rw [List.map_id'])
  have fits : fitsWord16 n = true := by
    simp only [fitsWord16, Bool.and_eq_true, decide_eq_true_eq]
    omega
  rw [hexWord?]
  · generalize parsed : ((Text.hex 1 n).mapM _ : Option (List Nat)) = found
    obtain rfl : found = some values := parsed.symm.trans read
    split
    · rename_i none
      cases none
    · rename_i none
      exact absurd (Option.some.inj none) nonempty
    · rename_i found
      cases found
      rw [value]
      exact if_pos fits
  · intro rest plus
    obtain ⟨d, small, same⟩ := mem_hex (plus ▸ List.mem_cons_self)
    exact (digitChar_of_lt d small).2.2.1 same.symm

namespace AccessFlags

variable {flags : AccessFlags} {part : String × UInt16}

theorem and_or_distrib (x a b : UInt16) : x &&& (a ||| b) = (x &&& a) ||| (x &&& b) :=
  UInt16.toBitVec_inj.mp BitVec.and_or_distrib_left

/-- A mask of one bit is either set as a whole or not at all. -/
theorem and_oneBit (x b : UInt16) {i : Nat} (oneBit : b.toBitVec = BitVec.twoPow 16 i) :
    x &&& b = 0 ∨ x &&& b = b := by
  have both := BitVec.and_twoPow x.toBitVec i
  rw [← oneBit] at both
  split at both
  · exact .inr (UInt16.toBitVec_inj.mp both)
  · exact .inl (UInt16.toBitVec_inj.mp both)

theorem and_named (flags : AccessFlags) :
    ∀ bit ∈ named.map Prod.snd, flags.bits &&& bit = 0 ∨ flags.bits &&& bit = bit := by
  have oneBit : ((named.map Prod.snd).all fun bit =>
      (List.range 16).any fun i => bit.toBitVec == BitVec.twoPow 16 i) = true := by decide
  intro bit member
  obtain ⟨i, _, one⟩ := List.any_eq_true.mp (List.all_eq_true.mp oneBit bit member)
  exact and_oneBit _ _ (beq_iff_eq.mp one)

/-- Gathering the masks that are set gives the same bits as cutting the flags to all masks. -/
theorem foldl_filter_has (flags : AccessFlags) {masks : List UInt16}
    (whole : ∀ mask ∈ masks, flags.bits &&& mask = 0 ∨ flags.bits &&& mask = mask) (start : UInt16) :
    (masks.filter flags.has).foldl (· ||| ·) (flags.bits &&& start) = flags.bits &&& masks.foldl (· ||| ·) start := by
  induction masks generalizing start with
  | nil => rfl
  | cons mask rest ih =>
    obtain ⟨first, others⟩ := List.forall_mem_cons.mp whole
    have next : flags.bits &&& (start ||| mask) =
        if flags.has mask then (flags.bits &&& start) ||| mask else flags.bits &&& start := by
      rw [and_or_distrib]
      split
      · rename_i set
        rw [beq_iff_eq.mp set]
      · rename_i unset
        rw [first.resolve_right fun set => unset (beq_iff_eq.mpr set), UInt16.or_zero]
    rw [List.foldl_cons, ← ih others, next, List.filter_cons]
    split <;> rfl

/-- The named bits that are set and the bits without a name make up all the flags. -/
theorem foldl_named (flags : AccessFlags) :
    ((named.map Prod.snd).filter flags.has).foldl (· ||| ·) 0 ||| (flags.bits &&& ~~~namedBits) = flags.bits := by
  have set := flags.foldl_filter_has flags.and_named 0
  rw [UInt16.and_zero] at set
  have every : namedBits ||| ~~~namedBits = -1 := by decide
  rw [set, ← namedBits, ← and_or_distrib, every, UInt16.and_neg_one]

/-- The bits that have no name. -/
def unnamed (flags : AccessFlags) : List UInt16 :=
  let rest := flags.bits &&& ~~~namedBits
  if rest = 0 then [] else [rest]

/-- The parts of the text with the bits that they stand for. -/
def parts (flags : AccessFlags) : List (String × UInt16) :=
  (named.filter fun (_, bit) => flags.has bit) ++
    flags.unnamed.map fun rest => ("0x" ++ String.ofList (Text.hex 1 rest.toNat), rest)

theorem text_eq (flags : AccessFlags) : flags.text = String.intercalate " | " (flags.parts.map Prod.fst) := by
  simp only [text, parts, unnamed, List.map_append, List.map_map]
  split <;> rfl

theorem foldl_parts (flags : AccessFlags) : (flags.parts.map Prod.snd).foldl (· ||| ·) 0 = flags.bits := by
  have names : (named.filter fun (_, bit) => flags.has bit).map Prod.snd = (named.map Prod.snd).filter flags.has := by
    rw [List.filter_map]
    rfl
  have whole := flags.foldl_named
  rw [parts, List.map_append, List.foldl_append, names, unnamed]
  by_cases none : flags.bits &&& ~~~namedBits = 0
  · rw [none, UInt16.or_zero] at whole
    rw [if_pos none]
    exact whole
  · rw [if_neg none]
    exact whole

theorem toList_hex (n : Nat) : ("0x" ++ String.ofList (Text.hex 1 n)).toList = '0' :: 'x' :: Text.hex 1 n := by
  rw [String.toList_append, String.toList_ofList (l := Text.hex 1 n)]
  rfl

/-- No printed part holds a bar or a blank, so splitting the text cannot cut through it. -/
theorem unbarred_part (member : part ∈ flags.parts) : Text.Unbarred part.1.toList := by
  have names : ∀ part ∈ named, '|' ∉ part.1.toList ∧ (part.1.toList.all fun c => !Text.isBlank c) = true := by decide
  rcases List.mem_append.mp member with inside | inside
  · obtain ⟨noBar, noBlank⟩ := names part (List.mem_filter.mp inside).1
    exact ⟨noBar, Text.noBlank_of_all noBlank⟩
  · obtain ⟨rest, _, rfl⟩ := List.mem_map.mp inside
    rw [toList_hex]
    refine ⟨fun bar => ?_, fun c member => ?_⟩
    · simp only [List.mem_cons, Char.reduceEq, false_or] at bar
      obtain ⟨d, small, same⟩ := mem_hex bar
      exact (digitChar_of_lt d small).2.1 same.symm
    · simp only [List.mem_cons] at member
      rcases member with rfl | rfl | member
      · decide
      · decide
      · obtain ⟨d, small, rfl⟩ := mem_hex member
        exact (digitChar_of_lt d small).2.2.2

/-- Each part of the text, a name or a number, is read as the bits that it was printed for. -/
theorem piece?_part (member : part ∈ flags.parts) : piece? part.1.toList = some part.2 := by
  have names : ∀ part ∈ named, piece? part.1.toList = some part.2 := by decide
  rcases List.mem_append.mp member with inside | inside
  · exact names part (List.mem_filter.mp inside).1
  · obtain ⟨rest, _, rfl⟩ := List.mem_map.mp inside
    rw [toList_hex]
    exact (hexWord?_hex rest.toNat_lt).trans (by rw [UInt16.ofNat_toNat])

theorem part_ne_nil (member : part ∈ flags.parts) : part.1.toList ≠ [] := by
  intro empty
  have read := piece?_part member
  rw [empty] at read
  cases read

theorem toList_text (flags : AccessFlags) :
    flags.text.toList = List.intercalate [' ', '|', ' '] (flags.parts.map fun part => part.1.toList) := by
  rw [text_eq, String.toList_intercalate, List.map_map]
  rfl

/-- The pieces of the text are read as the parts that it was joined from. -/
theorem mapM_splitAt_text (nonempty : flags.parts ≠ []) :
    (Text.splitAt '|' flags.text.toList).mapM (fun piece => piece? (Text.trim piece)) =
      some (flags.parts.map Prod.snd) := by
  have plain : ∀ piece ∈ flags.parts.map fun part => part.1.toList, Text.Unbarred piece := by
    intro piece member
    obtain ⟨part, inside, rfl⟩ := List.mem_map.mp member
    exact unbarred_part inside
  have pieces := Text.map_trim_splitAt_intercalate (by simpa using nonempty) plain
  have trimmed := List.mapM_map (f := Text.trim) (g := piece?) (l := Text.splitAt '|' flags.text.toList)
  rw [toList_text, pieces, List.mapM_map] at trimmed
  rw [toList_text]
  exact trimmed.symm.trans (mapM_eq_some_map fun part member => piece?_part member)

theorem not_all_isBlank (nonempty : flags.parts ≠ []) : ¬ flags.text.toList.all Text.isBlank := by
  obtain ⟨part, rest, whole⟩ := List.exists_cons_of_ne_nil nonempty
  have member : part ∈ flags.parts := by simp [whole]
  obtain ⟨c, cs, chars⟩ := List.exists_cons_of_ne_nil (part_ne_nil member)
  have first : c ∈ flags.text.toList := by
    rw [toList_text, whole, List.map_cons, chars]
    cases rest <;> simp [List.intercalate]
  intro blank
  have visible := (unbarred_part member).2 c (by simp [chars])
  rw [List.all_eq_true.mp blank c first] at visible
  cases visible

/-- Flags are read back from their own text, whether or not all of their bits have names. -/
theorem ofText?_text (flags : AccessFlags) : ofText? flags.text = some flags := by
  have bits := flags.foldl_parts
  by_cases empty : flags.parts = []
  · rw [empty] at bits
    cases flags
    cases bits
    rfl
  · rw [ofText?, if_neg (not_all_isBlank empty), mapM_splitAt_text empty, Option.map_some, bits]

end AccessFlags

end Unstack
