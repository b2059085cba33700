import Unstack.JavaType

namespace Unstack

namespace Text

variable {cs : List Char}

theorem noBlank_of_all (test : (cs.all fun c => !isBlank c) = true) : ∀ c ∈ cs, isBlank c = false := by
  simpa using test

theorem dropWhile_isBlank (noBlank : ∀ c ∈ cs, isBlank c = false) : cs.dropWhile isBlank = cs := by
  cases cs with
  | nil => rfl
  | cons c rest => rw [List.dropWhile_cons_of_neg (by simp [noBlank c (.head _)])]

theorem trim_eq_self (noBlank : ∀ c ∈ cs, isBlank c = false) : trim cs = cs := by
  have reversed : ∀ c ∈ cs.reverse, isBlank c = false := fun c member => noBlank c (List.mem_reverse.mp member)
  rw [trim, dropWhile_isBlank noBlank, dropWhile_isBlank reversed, List.reverse_reverse]

end Text

namespace JavaType

variable {cs : List Char} {t : JavaType}

/-- The types with a name of their own. -/
def keywords : List JavaType :=
  [void, boolean, byte, char, short, int, long, float, double, null, returnAddress, unknown]

/-- The name of an object type, in the form in which reading leaves it. -/
structure Dotted (cs : List Char) : Prop where
  nonempty : cs ≠ []
  noBlank : ∀ c ∈ cs, Text.isBlank c = false
  noSlash : '/' ∉ cs
  noBrackets : beforeBrackets? cs = none
  noKeyword : ∀ t ∈ keywords, cs ≠ t.text.toList

/-- The type has a spelling of its own. -/
def Spelled : JavaType → Prop
  | object name => Dotted name.toList
  | array elem => elem.Spelled
  | _ => True

theorem Spelled.noBlank (spelled : t.Spelled) : ∀ c ∈ t.text.toList, Text.isBlank c = false := by
  induction t with
  | object name => exact Dotted.noBlank spelled
  | array elem ih =>
    intro c member
    rw [text, String.toList_append, List.mem_append] at member
    rcases member with member | member
    · exact ih spelled c member
    · exact Text.noBlank_of_all (by decide) c member
  | _ => exact Text.noBlank_of_all (by decide)

theorem beforeBrackets?_append (cs : List Char) : beforeBrackets? (cs ++ ['[', ']']) = some cs := by
  simp [beforeBrackets?]

theorem ofChars_of_plain (noBlank : ∀ c ∈ cs, Text.isBlank c = false)
    (noBrackets : beforeBrackets? cs = none) : ofChars cs = ofSimpleText cs := by
  rw [ofChars]
  split
  · rename_i found
    rw [Text.trim_eq_self noBlank, noBrackets] at found
    cases found
  · rw [Text.trim_eq_self noBlank]

theorem ofChars_brackets (noBlank : ∀ c ∈ cs, Text.isBlank c = false) :
    ofChars (cs ++ ['[', ']']) = (ofChars cs).map array := by
  have whole : ∀ c ∈ cs ++ ['[', ']'], Text.isBlank c = false := by
    intro c member
    rcases List.mem_append.mp member with inside | closing
    · exact noBlank c inside
    · exact Text.noBlank_of_all (by decide) c closing
  rw [ofChars]
  split
  · rename_i inner found
    rw [Text.trim_eq_self whole, beforeBrackets?_append] at found
    rw [Option.some.inj found]
  · rename_i none
    rw [Text.trim_eq_self whole, beforeBrackets?_append] at none
    cases none

theorem ofSimpleText_keyword (keyword : t ∈ keywords) : ofSimpleText t.text.toList = .ok t := by
  simp only [keywords, List.mem_cons, List.not_mem_nil, or_false] at keyword
  rcases keyword with rfl | rfl | rfl | rfl | rfl | rfl | rfl | rfl | rfl | rfl | rfl | rfl <;> rfl

/-- A name that is no keyword is read as the name of an object type. -/
theorem ofSimpleText_object (noKeyword : ∀ t ∈ keywords, cs ≠ t.text.toList) : ofSimpleText cs =
      if cs.isEmpty || cs.any Text.isBlank then .error ⟨String.ofList cs⟩ else .ok (ofName cs) := by
  have other (t : JavaType) (keyword : t ∈ keywords) : String.ofList cs ≠ t.text := fun same =>
    noKeyword t keyword (by rw [← same, String.toList_ofList])
  simp only [keywords, List.forall_mem_cons, text] at other
  unfold ofSimpleText
  split <;> simp_all

def dot (c : Char) : Char := if c = '/' then '.' else c

theorem ofName_eq (cs : List Char) : ofName cs = object (String.ofList (cs.map dot)) := rfl

theorem dot_eq_iff {c d : Char} (noDot : d ≠ '.') (noSlash : d ≠ '/') : dot c = d ↔ c = d := by
  unfold dot
  split <;> grind

theorem map_dot (noSlash : '/' ∉ cs) : cs.map dot = cs := by
  refine (List.map_congr_left fun c member => ?_).trans (List.map_id cs)
  exact if_neg (ne_of_mem_of_not_mem member noSlash)

theorem Spelled.ofText (spelled : t.Spelled) : JavaType.ofText t.text = .ok t := by
  induction t with
  | object name =>
    have dotted : Dotted name.toList := spelled
    rw [JavaType.ofText, text, ofChars_of_plain dotted.noBlank dotted.noBrackets,
      ofSimpleText_object dotted.noKeyword, if_neg, ofName_eq, map_dot dotted.noSlash,
      String.ofList_toList]
    simpa [dotted.nonempty] using dotted.noBlank
  | array elem ih =>
    rw [JavaType.ofText, text, String.toList_append]
    exact (ofChars_brackets (Spelled.noBlank (t := elem) spelled)).trans (congrArg (Except.map array) (ih spelled))
  | _ => exact (ofChars_of_plain (Text.noBlank_of_all (by decide)) (by decide)).trans (ofSimpleText_keyword (by decide))

theorem spelled_of_keyword (keyword : t ∈ keywords) : t.Spelled := by
  simp only [keywords, List.mem_cons, List.not_mem_nil, or_false] at keyword
  rcases keyword with rfl | rfl | rfl | rfl | rfl | rfl | rfl | rfl | rfl | rfl | rfl | rfl <;> exact trivial

theorem eq_of_beforeBrackets? {inner : List Char} (found : beforeBrackets? cs = some inner) :
    cs = inner ++ ['[', ']'] := by
  unfold beforeBrackets? at found
  split at found
  · rename_i rest atEnd
    cases found
    rw [← List.reverse_reverse cs, atEnd]
    simp
  · cases found

theorem beforeBrackets?_map_dot (noBrackets : beforeBrackets? cs = none) : beforeBrackets? (cs.map dot) = none := by
  rw [Option.eq_none_iff_forall_ne_some]
  intro inner found
  obtain ⟨front, back, rfl, _, closing⟩ := List.map_eq_append_iff.mp (eq_of_beforeBrackets? found)
  obtain ⟨c, rest, rfl, opened, closing⟩ := List.map_eq_cons_iff.mp closing
  obtain ⟨d, rest, rfl, closed, closing⟩ := List.map_eq_cons_iff.mp closing
  cases List.map_eq_nil_iff.mp closing
  cases (dot_eq_iff (by decide) (by decide)).mp opened
  cases (dot_eq_iff (by decide) (by decide)).mp closed
  rw [beforeBrackets?_append] at noBrackets
  cases noBrackets

theorem dot_notMem_keyword : ∀ t ∈ keywords, '.' ∉ t.text.toList := by decide

/-- No keyword comes about where a dot takes the place of a slash. -/
theorem map_dot_ne_keyword (keyword : t ∈ keywords) (other : cs ≠ t.text.toList) : cs.map dot ≠ t.text.toList := by
  intro same
  have noSlash : '/' ∉ cs := fun slash =>
    dot_notMem_keyword t keyword (same ▸ List.mem_map_of_mem (f := dot) slash)
  exact other ((map_dot noSlash).symm.trans same)

theorem spelled_ofName (nonempty : cs ≠ []) (noBlank : ∀ c ∈ cs, Text.isBlank c = false)
    (noBrackets : beforeBrackets? cs = none) (noKeyword : ∀ t ∈ keywords, cs ≠ t.text.toList) :
    (ofName cs).Spelled := by
  change Dotted (String.ofList (cs.map dot)).toList
  rw [String.toList_ofList]
  refine ⟨by simpa using nonempty, fun c member => ?_, fun slash => ?_, beforeBrackets?_map_dot noBrackets,
    fun t keyword => map_dot_ne_keyword keyword (noKeyword t keyword)⟩
  · obtain ⟨d, inName, rfl⟩ := List.mem_map.mp member
    unfold dot
    split
    · decide
    · exact noBlank d inName
  · obtain ⟨d, _, same⟩ := List.mem_map.mp slash
    unfold dot at same
    split at same
    · cases same
    · exact absurd same ‹_›

theorem spelled_of_ofSimpleText (noBrackets : beforeBrackets? cs = none)
    (read : ofSimpleText cs = .ok t) : t.Spelled := by
  by_cases keyword : ∃ t' ∈ keywords, cs = t'.text.toList
  · obtain ⟨t', keyword, rfl⟩ := keyword
    rw [ofSimpleText_keyword keyword] at read
    cases read
    exact spelled_of_keyword keyword
  · simp only [not_exists, not_and] at keyword
    rw [ofSimpleText_object keyword] at read
    split at read
    · cases read
    · rename_i plain
      simp only [Bool.or_eq_true, List.isEmpty_iff, List.any_eq_true, not_or, not_exists, not_and,
        Bool.not_eq_true] at plain
      cases read
      exact spelled_ofName plain.1 plain.2 noBrackets keyword

theorem spelled_of_ofChars (read : ofChars cs = .ok t) : t.Spelled := by
  fun_induction ofChars cs generalizing t with
  | case1 cs inner found ih =>
    cases elem : ofChars inner with
    | error e =>
      rw [elem] at read
      cases read
    | ok elem' =>
      rw [elem] at read
      cases read
      exact (ih elem : elem'.Spelled)
  | case2 cs plain => exact spelled_of_ofSimpleText plain read

/-- The written form of a type that was read is read as this type again, has no blanks, and is that of no other type
that can be read. -/
theorem ofText_normalises {s : String} (read : ofText s = .ok t) :
    ofText t.text = .ok t ∧ (∀ c ∈ t.text.toList, Text.isBlank c = false) ∧
      ∀ s' t', ofText s' = .ok t' → (t = t' ↔ t.text = t'.text) := by
  have spelled : t.Spelled := spelled_of_ofChars read
  refine ⟨spelled.ofText, spelled.noBlank, fun s' t' read' => ⟨congrArg text, fun alike => ?_⟩⟩
  have spelled' : t'.Spelled := spelled_of_ofChars read'
  exact Except.ok.inj (spelled.ofText.symm.trans (alike ▸ spelled'.ofText))

theorem ofText_normalises_slashes : ofText " a/int [] [] " = .ok (array (array (object "a.int"))) ∧
    ofText "a.int[][]" = .ok (array (array (object "a.int"))) := by
  have read : ofText " a/int [] [] " = .ok (array (array (object "a.int"))) := by with_unfolding_all rfl
  exact ⟨read, (ofText_normalises read).1⟩

end JavaType

end Unstack
