import FeatureNet.Proofs.WrittenNumbers
import FeatureNet.Store
import Mathlib.Data.List.Forall2

namespace FeatureNet

namespace Json

open Decimal

variable {cs rest : List Char} {c : Char} {d : Doc}

/-- A text that reads as a document before whatever does not go on with a number. -/
structure Reads (cs : List Char) (d : Doc) : Prop where
  starts : ∃ c rest, cs = c :: rest ∧ isBlank c = false ∧ c ≠ ']'
  reads : ∀ rest calls, Ends rest → 2 * cs.length ≤ calls → readValue calls (cs ++ rest) = some (d, rest)

theorem Reads.length_pos (read : Reads cs d) : 0 < cs.length := by
  obtain ⟨c, rest, rfl, _⟩ := read.starts
  exact Nat.succ_pos _

/-- A text is read behind its first character, with one call less. -/
theorem reads_of_calls (solid : isBlank c = false) (notClosing : c ≠ ']')
    (read : ∀ rest calls, Ends rest → 2 * cs.length + 1 ≤ calls →
      readValue (calls + 1) (c :: (cs ++ rest)) = some (d, rest)) : Reads (c :: cs) d := by
  refine ⟨⟨c, cs, rfl, solid, notClosing⟩, fun rest calls ends enough => ?_⟩
  rw [List.length_cons] at enough
  obtain ⟨calls, rfl⟩ : ∃ fewer, calls = fewer + 1 := Nat.exists_eq_succ_of_ne_zero (by omega)
  exact read rest calls ends (by omega)

theorem Begins.solid (begins : Begins c) : isBlank c = false := by
  have space : c ≠ ' ' := begins.ne (by decide) (by decide)
  have tab : c ≠ '\t' := begins.ne (by decide) (by decide)
  have lineFeed : c ≠ '\n' := begins.ne (by decide) (by decide)
  have carriageReturn : c ≠ '\r' := begins.ne (by decide) (by decide)
  simp [isBlank, space, tab, lineFeed, carriageReturn]

/-- A text that begins as a number is read as one. -/
theorem readValue_number (calls : Nat) (begins : Begins c) :
    readValue (calls + 1) (c :: rest) =
      (readLiteral (c :: rest)).map fun (n, rest) => (.number n, rest) := by
  have kept : skipBlanks (c :: rest) = c :: rest := by simp [skipBlanks, begins.solid]
  have first {other : Char} {rest' : List Char} (same : skipBlanks (c :: rest) = other :: rest') :
      c = other := (List.cons.inj (kept.symm.trans same)).1
  unfold readValue
  split
  · next same => exact absurd (first same) (begins.ne (by decide) (by decide))
  · next same => exact absurd (first same) (begins.ne (by decide) (by decide))
  · next same => exact absurd (first same) (begins.ne (by decide) (by decide))
  · next same => exact absurd (first same) (begins.ne (by decide) (by decide))
  · next same => exact absurd (first same) (begins.ne (by decide) (by decide))
  · next same => exact absurd (first same) (begins.ne (by decide) (by decide))
  · rw [kept]

/-- A literal reads as the number it is. -/
theorem Literal.Proper.reads {l : Literal} (proper : l.Proper) : Reads l.text (.number l) := by
  obtain ⟨c, cs, shape, begins⟩ := proper.begins_text
  rw [shape]
  refine reads_of_calls begins.solid (begins.ne (by decide) (by decide)) fun rest calls ends _ => ?_
  have literal := proper.readLiteral_text ends
  rw [shape, List.cons_append] at literal
  rw [readValue_number calls begins, literal, Option.map_some]

theorem reads_int (n : Int) : Reads (integerText n) (.number (intLiteral n)) :=
  text_intLiteral n ▸ (proper_intLiteral n).reads

section Arrays

variable {blanks after text : List Char} {texts : List (List Char)} {docs : List Doc}

/-- Nothing but blanks. -/
def Blank (cs : List Char) : Prop := ∀ c ∈ cs, isBlank c = true

instance (cs : List Char) : Decidable (Blank cs) := List.decidableBAll (isBlank · = true) cs

theorem blank_nil : Blank [] := by simp [Blank]

theorem skipBlanks_append (blank : Blank blanks) (cs : List Char) :
    skipBlanks (blanks ++ cs) = skipBlanks cs := List.dropWhile_append_of_pos blank

theorem skipBlanks_cons (solid : isBlank c = false) (cs : List Char) :
    skipBlanks (c :: cs) = c :: cs := by
  simp [skipBlanks, solid]

theorem Ends.after_blanks (ends : Ends rest) (blank : Blank blanks) : Ends (blanks ++ rest) := by
  cases blanks with
  | nil => exact ends
  | cons c blanks =>
    have first := blank c (List.mem_cons_self ..)
    simp only [isBlank, Bool.or_eq_true, decide_eq_true_eq] at first
    rcases first with ((rfl | rfl) | rfl) | rfl <;> exact ends_cons (by decide) (by decide)

/-- Blanks before a value make no difference. -/
theorem readValue_blanks (blank : Blank blanks) (calls : Nat) (cs : List Char) :
    readValue calls (blanks ++ cs) = readValue calls cs := by
  cases calls with
  | zero => rw [readValue, readValue]
  | succ calls =>
    unfold readValue
    rw [skipBlanks_append blank]

/-- A text with blanks before it and after it. -/
inductive Spaced (text : List Char) : List Char → Prop
  | intro {before after : List Char} : Blank before → Blank after → Spaced text (before ++ text ++ after)

theorem Spaced.lead (blank : Blank blanks) (text : List Char) : Spaced text (blanks ++ text) := by
  have spaced : Spaced text (blanks ++ text ++ []) := .intro blank blank_nil
  rwa [List.append_nil] at spaced

theorem Spaced.refl (text : List Char) : Spaced text text := .lead blank_nil text

/-- A text that reads as a document, blanks around it or not. -/
def ReadsAmid (cs : List Char) (d : Doc) : Prop := ∃ text, Spaced text cs ∧ Reads text d

theorem ReadsAmid.length_pos (read : ReadsAmid cs d) : 0 < cs.length := by
  obtain ⟨_, ⟨_, _⟩, read⟩ := read
  have positive := read.length_pos
  simp only [List.length_append]
  omega

/-- Blanks that come after a value are left to what follows it. -/
theorem ReadsAmid.readValue (read : ReadsAmid cs d) (ends : Ends rest) (calls : Nat)
    (enough : 2 * cs.length ≤ calls) :
    ∃ blanks, Blank blanks ∧ Json.readValue calls (cs ++ rest) = some (d, blanks ++ rest) := by
  obtain ⟨text, @⟨before, after, blankBefore, blankAfter⟩, read⟩ := read
  refine ⟨after, blankAfter, ?_⟩
  rw [List.append_assoc, List.append_assoc, readValue_blanks blankBefore]
  refine read.reads _ calls (ends.after_blanks blankAfter) ?_
  simp only [List.length_append] at enough
  omega

/-- The items of an array after its first. -/
def itemsText (texts : List (List Char)) : List Char := texts.flatMap (',' :: ·)

/-- An array of items with commas between them. -/
def arrayText (after : List Char) : List (List Char) → List Char
  | [] => '[' :: after ++ [']']
  | text :: texts => '[' :: text ++ itemsText texts ++ after ++ [']']

theorem readItems_append (first : ReadsAmid text d) (others : List.Forall₂ ReadsAmid texts docs)
    (blankAfter : Blank after) (rest : List Char) (calls : Nat)
    (enough : 2 * (text ++ itemsText texts).length + 1 ≤ calls) :
    readItems calls (text ++ (itemsText texts ++ (after ++ ']' :: rest))) = some (d :: docs, rest) := by
  induction others generalizing text d calls with
  | nil =>
    obtain ⟨calls, rfl⟩ : ∃ fewer, calls = fewer + 1 := Nat.exists_eq_succ_of_ne_zero (by omega)
    have closing : Ends (']' :: rest) := ends_cons (by decide) (by decide)
    have ends := closing.after_blanks blankAfter
    obtain ⟨blanks, blank, read⟩ := first.readValue ends calls (by simp [itemsText] at enough; omega)
    unfold readItems
    rw [itemsText, List.flatMap_nil, List.nil_append, read]
    simp [skipBlanks_append blank, skipBlanks_append blankAfter, skipBlanks_cons (c := ']') (by decide)]
  | @cons second d' texts docs next _ ih =>
    obtain ⟨calls, rfl⟩ : ∃ fewer, calls = fewer + 1 := Nat.exists_eq_succ_of_ne_zero (by omega)
    have shape : itemsText (second :: texts) = ',' :: (second ++ itemsText texts) := by
      simp [itemsText]
    rw [shape] at enough ⊢
    simp only [List.length_append, List.length_cons] at enough
    have positive := first.length_pos
    obtain ⟨blanks, blank, read⟩ := first.readValue
      (ends_comma (second ++ itemsText texts ++ (after ++ ']' :: rest))) calls (by omega)
    have onward := ih next calls (by rw [List.length_append]; omega)
    rw [List.append_assoc] at read
    unfold readItems
    rw [List.cons_append, List.append_assoc, read]
    simp only [Option.bind_eq_bind, Option.bind_some, skipBlanks_append blank,
      skipBlanks_cons (c := ',') (by decide), onward]
    rfl

theorem Reads.array (blankAfter : Blank after) (items : List.Forall₂ ReadsAmid texts docs) :
    Reads (arrayText after texts) (.array docs) := by
  cases items with
  | nil =>
    refine reads_of_calls (by decide) (by decide) fun rest calls _ _ => ?_
    unfold readValue
    simp [skipBlanks_cons (c := '[') (by decide), skipBlanks_append blankAfter,
      skipBlanks_cons (c := ']') (by decide)]
  | @cons text d texts docs first others =>
    have shape : arrayText after (text :: texts) = '[' :: (text ++ (itemsText texts ++ (after ++ [']']))) := by
      simp [arrayText]
    rw [shape]
    refine reads_of_calls (by decide) (by decide) fun rest calls _ enough => ?_
    simp only [List.length_append] at enough
    obtain ⟨core, @⟨before, behind, blankBefore, blankBehind⟩, read⟩ := first
    obtain ⟨c, cs, rfl, solid, notClosing⟩ := read.starts
    -- The blanks before the first item are skipped with those behind the bracket.
    have items := readItems_append ⟨_, .intro blank_nil blankBehind, read⟩ others
      blankAfter rest calls (by simp only [List.length_append, List.length_nil] at enough ⊢; omega)
    unfold readValue
    simp only [List.cons_append, List.append_assoc, skipBlanks_cons (c := '[') (by decide),
      skipBlanks_append blankBefore, skipBlanks_cons solid]
    split
    · next closing => exact absurd (List.cons.inj closing).1 notClosing
    · simp only [List.cons_append, List.nil_append, List.append_assoc] at items ⊢
      rw [items]
      rfl

end Arrays

/-- A text is read as what it holds between blanks. -/
theorem ReadsAmid.ofChars? (read : ReadsAmid cs d) : Doc.ofChars? cs = some d := by
  obtain ⟨blanks, blank, whole⟩ := read.readValue ends_nil (2 * cs.length + 2) (by omega)
  have rest : skipBlanks (blanks ++ []) = [] := skipBlanks_append blank []
  rw [List.append_nil] at whole rest
  unfold Doc.ofChars?
  rw [whole]
  simp [rest]

/-- The array that a list of ids is written as. -/
def idsDoc (ids : List FeatureId) : Doc := .array (ids.map fun id => .number (intLiteral id.toInt))

/-- A text that lists ids: the array of their numbers, with blanks wherever there may be some. -/
inductive ListsIds (ids : List FeatureId) : List Char → Prop
  | intro {texts : List (List Char)} {after cs : List Char} :
      List.Forall₂ (fun (id : FeatureId) text => Spaced (integerText id.toInt) text) ids texts → Blank after →
      Spaced (arrayText after texts) cs → ListsIds ids cs

theorem ListsIds.reads {ids : List FeatureId} (lists : ListsIds ids cs) : ReadsAmid cs (idsDoc ids) := by
  obtain ⟨numbers, blank, spaced⟩ := lists
  refine ⟨_, spaced, .array blank ?_⟩
  clear spaced
  induction numbers with
  | nil => exact .nil
  | cons number _ ih => exact .cons ⟨_, number, reads_int _⟩ ih

theorem newLine_blank (depth : Nat) : Blank (newLine depth) := by
  intro c member
  rcases List.mem_cons.mp member with rfl | space
  · decide
  · rw [List.eq_of_mem_replicate space]
    decide

theorem prettyItems_eq (depth : Nat) (items : List Value) :
    prettyItems depth items = itemsText (items.map fun item => newLine depth ++ item.pretty depth) := by
  induction items with
  | nil => rfl
  | cons item items ih => simp [prettyItems, itemsText, ih]

/-- An array spread over lines has each item on a line of its own, and so its closing bracket. -/
theorem pretty_array (depth : Nat) (items : List Value) : ∃ after, Blank after ∧
    (Value.array items).pretty depth =
      arrayText after (items.map fun item => newLine (depth + 1) ++ item.pretty (depth + 1)) := by
  cases items with
  | nil => exact ⟨[], blank_nil, rfl⟩
  | cons first items =>
    exact ⟨newLine depth, newLine_blank depth, by simp [Value.pretty, arrayText, prettyItems_eq]⟩

theorem listsIds_pretty (ids : List FeatureId) : ListsIds ids ((idsValue ids).pretty 0) := by
  have numbers : List.Forall₂ (fun (id : FeatureId) text => Spaced (integerText id.toInt) text) ids
      ((ids.map idValue).map fun item => newLine 1 ++ item.pretty 1) := by
    induction ids with
    | nil => exact .nil
    | cons id ids ih => exact .cons (.lead (newLine_blank 1) (integerText id.toInt)) ih
  obtain ⟨after, blank, shape⟩ := pretty_array 0 (ids.map idValue)
  rw [idsValue, shape]
  exact .intro numbers blank (.refl _)

theorem id?_intLiteral (id : FeatureId) : (Doc.number (intLiteral id.toInt)).id? = some id := by
  have least : -0x8000000000000000 ≤ id.toInt := Int64.le_toInt id.value
  have most : id.toInt < 0x8000000000000000 := Int64.toInt_lt id.value
  have number := number?_intLiteral least (by omega)
  simp [Doc.id?, Doc.int?, number, FeatureId.ofInt?_toInt]

theorem list?_idsDoc (ids : List FeatureId) : (idsDoc ids).list? Doc.id? = some ids := by
  unfold Doc.list? idsDoc
  dsimp only
  induction ids with
  | nil => rfl
  | cons id ids ih => simp [id?_intLiteral, ih]

end Json

/-- A text that lists ids is read as the set of them, whatever their order and however often each is listed. -/
theorem FileStore.readIds?_of_listsIds {text : String} {ids : List FeatureId}
    (lists : Json.ListsIds ids text.toList) : readIds? text = some (.ofList ids) := by
  have read := lists.reads.ofChars?
  simp [readIds?, Json.Doc.read?, read, Json.Doc.idSet?, Json.list?_idsDoc]

/-- What a store writes it reads again. -/
theorem FileStore.readIds?_idsText (ids : IdSet) : readIds? (idsText ids) = some ids := by
  have lists : Json.ListsIds ids.toList (idsText ids).toList := by
    rw [idsText, Json.Value.prettyText, String.toList_ofList]
    exact Json.listsIds_pretty ids.toList
  rw [readIds?_of_listsIds lists, IdSet.ofList_toList]

end FeatureNet
