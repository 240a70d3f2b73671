import FeatureNet.Proofs.WrittenIds

namespace FeatureNet

namespace Json

open Decimal

section Strings

variable {cs rest : List Char} {c : Char}

/-- What a character of a string is read as. A control character without a letter of its own is written by
its code, and stays a unit until the string is settled. -/
def piece (c : Char) : Piece :=
  if c < ' ' ∧ c ∉ ['\x08', '\x0c', '\n', '\r', '\t'] then .unit c.toNat else .plain c

def pieces (s : String) : Quoted := s.toList.map piece

theorem hexUnit?_control : ∀ code : Fin 32,
    hexUnit? '0' '0' (Nat.digitChar (code / 16)) (Nat.digitChar (code % 16)) = some code.val := by decide

theorem readQuoted_escape (c : Char) (rest : List Char) :
    readQuoted (escape c ++ rest) = (readQuoted rest).map fun (q, rest) => (piece c :: q, rest) := by
  unfold escape
  split
  -- The seven characters that have an escape of two letters.
  iterate 7
    rw [List.cons_append, List.cons_append, List.nil_append, readQuoted]
    · cases readQuoted rest <;> rfl
    · simp
  · next quote backslash _ _ _ _ _ =>
    split
    · next control =>
      have own : piece c = .unit c.toNat := if_pos ⟨control, by simp_all⟩
      have small : c.toNat < 32 := control
      simp only [List.cons_append, List.nil_append]
      rw [readQuoted, hexUnit?_control ⟨c.toNat, small⟩, own]
      cases readQuoted rest <;> rfl
    · next solid =>
      have own : piece c = .plain c := if_neg fun both => solid both.1
      rw [List.cons_append, List.nil_append, readQuoted, if_neg solid, own]
      · cases readQuoted rest <;> rfl
      · exact quote
      · exact fun _ _ _ _ _ same => absurd same backslash
      · exact fun _ _ same => absurd same backslash

theorem readQuoted_quote (s rest : List Char) :
    readQuoted (s.flatMap escape ++ '"' :: rest) = some (s.map piece, rest) := by
  induction s with
  | nil => rfl
  | cons c s ih => rw [List.flatMap_cons, List.append_assoc, readQuoted_escape, ih]; rfl

/-- A unit below the surrogates makes a character by itself. -/
theorem chars?_unit {code : Nat} (low : code < 0xD800) (rest : Quoted) :
    Quoted.chars? (.unit code :: rest) = (Quoted.chars? rest).map (Char.ofNat code :: ·) := by
  have notHigh : isHighSurrogate code = false := by simp [isHighSurrogate]; omega
  have notLow : isLowSurrogate code = false := by simp [isLowSurrogate]; omega
  rcases rest with _ | ⟨_ | _, _⟩ <;> simp [Quoted.chars?, notHigh, notLow]

/-- A string is settled as it was written. -/
theorem string?_pieces (s : String) : (pieces s).string? = some s := by
  have chars (cs : List Char) : Quoted.chars? (cs.map piece) = some cs := by
    induction cs with
    | nil => rfl
    | cons c cs ih =>
      rw [List.map_cons, piece]
      split
      · next control =>
        have small : c.toNat < 32 := control.1
        rw [chars?_unit (by omega), ih, Option.map_some, Char.ofNat_toNat]
      · rw [Quoted.chars?, ih, Option.map_some]
  rw [Quoted.string?, pieces, chars, Option.map_some, String.ofList_toList]

theorem pieces_inj {s t : String} (same : pieces s = pieces t) : s = t :=
  Option.some.inj (by rw [← string?_pieces s, same, string?_pieces])

end Strings

section Atoms

theorem reads_null : Reads ['n', 'u', 'l', 'l'] .null :=
  reads_of_calls (by decide) (by decide) fun rest calls _ _ => by
    simp [readValue, skipBlanks_cons (c := 'n') (by decide)]

theorem reads_bool (b : Bool) : Reads (atomText (.bool b)) (.bool b) := by
  cases b
  · exact reads_of_calls (by decide) (by decide) fun rest calls _ _ => by
      simp [readValue, skipBlanks_cons (c := 'f') (by decide)]
  · exact reads_of_calls (by decide) (by decide) fun rest calls _ _ => by
      simp [readValue, skipBlanks_cons (c := 't') (by decide)]

theorem quote_append (s : String) (rest : List Char) :
    quote s ++ rest = '"' :: (s.toList.flatMap escape ++ '"' :: rest) := by simp [quote]

theorem reads_text (s : String) : Reads (quote s) (.text (pieces s)) := by
  have shape : quote s = '"' :: (s.toList.flatMap escape ++ ['"']) := by simp [quote]
  rw [shape]
  refine reads_of_calls (by decide) (by decide) fun rest calls _ _ => ?_
  simp [readValue, skipBlanks_cons (c := '"') (by decide), readQuoted_quote, pieces]

end Atoms

section Objects

variable {rest after text : List Char} {texts : List (List Char)} {d : Quoted × Doc}
  {docs : List (Quoted × Doc)}

/-- A key and the text of its value. -/
def memberText (key : String) (text : List Char) : List Char := quote key ++ ':' :: text

/-- A text that reads as a member of an object, blanks before it or not. -/
inductive ReadsMember : List Char → Quoted × Doc → Prop
  | intro {before text : List Char} {key : String} {d : Doc} : Blank before → ReadsAmid text d →
      ReadsMember (before ++ memberText key text) (pieces key, d)

/-- An object of members with commas between them. -/
def objectText (after : List Char) : List (List Char) → List Char
  | [] => '{' :: after ++ ['}']
  | text :: texts => '{' :: text ++ itemsText texts ++ after ++ ['}']

/-- After a member the object goes on with a comma or ends. -/
theorem ReadsMember.readMembers (member : ReadsMember text d) (ends : Ends rest) (calls : Nat)
    (enough : 2 * text.length ≤ calls) :
    Json.readMembers (calls + 1) (text ++ rest) =
      match skipBlanks rest with
      | ',' :: rest => do
        let (members, rest) ← Json.readMembers calls rest
        return (d :: members, rest)
      | '}' :: rest => return ([d], rest)
      | _ => none := by
  obtain @⟨before, text, key, d, blank, read⟩ := member
  simp only [memberText, List.length_append, List.length_cons] at enough
  obtain ⟨blanks, blankAfter, value⟩ := read.readValue ends calls (by omega)
  conv_lhs => unfold Json.readMembers
  rw [List.append_assoc, skipBlanks_append blank, memberText, List.append_assoc, quote_append,
    skipBlanks_cons (by decide)]
  simp only [readQuoted_quote, Option.bind_eq_bind, Option.bind_some, List.cons_append,
    skipBlanks_cons (c := ':') (by decide), value, skipBlanks_append blankAfter]
  rfl

theorem ReadsMember.length_pos (member : ReadsMember text d) : 0 < text.length := by
  obtain ⟨_, _⟩ := member
  simp only [memberText, List.length_append, List.length_cons]
  omega

theorem readMembers_append (first : ReadsMember text d) (others : List.Forall₂ ReadsMember texts docs)
    (blankAfter : Blank after) (rest : List Char) (calls : Nat)
    (enough : 2 * (text ++ itemsText texts).length + 1 ≤ calls) :
    readMembers calls (text ++ (itemsText texts ++ (after ++ '}' :: rest))) = some (d :: docs, rest) := by
  induction others generalizing text d calls with
  | nil =>
    obtain ⟨calls, rfl⟩ : ∃ fewer, calls = fewer + 1 := Nat.exists_eq_succ_of_ne_zero (by omega)
    have closing : Ends ('}' :: rest) := ends_cons (by decide) (by decide)
    have read := first.readMembers (closing.after_blanks blankAfter) calls (by simp [itemsText] at enough; omega)
    rw [itemsText, List.flatMap_nil, List.nil_append, read]
    simp [skipBlanks_append blankAfter, skipBlanks_cons (c := '}') (by decide)]
  | @cons second d' texts docs next _ ih =>
    obtain ⟨calls, rfl⟩ : ∃ fewer, calls = fewer + 1 := Nat.exists_eq_succ_of_ne_zero (by omega)
    have shape : itemsText (second :: texts) = ',' :: (second ++ itemsText texts) := by
      simp [itemsText]
    rw [shape] at enough ⊢
    simp only [List.length_append, List.length_cons] at enough
    have positive := first.length_pos
    have onward := ih next calls (by rw [List.length_append]; omega)
    rw [List.cons_append, List.append_assoc, first.readMembers (ends_comma _) calls (by omega),
      skipBlanks_cons (by decide)]
    simp only [onward]
    rfl

theorem Reads.object (blankAfter : Blank after) (members : List.Forall₂ ReadsMember texts docs) :
    Reads (objectText after texts) (.object docs) := by
  cases members with
  | nil =>
    refine reads_of_calls (by decide) (by decide) fun rest calls _ _ => ?_
    unfold readValue
    simp [skipBlanks_cons (c := '{') (by decide), skipBlanks_append blankAfter,
      skipBlanks_cons (c := '}') (by decide)]
  | @cons text d texts docs first others =>
    have shape : objectText after (text :: texts) = '{' :: (text ++ (itemsText texts ++ (after ++ ['}']))) := by
      simp [objectText]
    rw [shape]
    refine reads_of_calls (by decide) (by decide) fun rest calls _ enough => ?_
    simp only [List.length_append] at enough
    obtain @⟨before, value, key, d, blankBefore, read⟩ := first
    -- The blanks before the first key are skipped with those behind the brace.
    have members := readMembers_append (@ReadsMember.intro _ _ key _ blank_nil read) others blankAfter rest calls
      (by simp only [List.length_append, List.length_nil] at enough ⊢; omega)
    unfold readValue
    simp only [List.append_assoc, skipBlanks_cons (c := '{') (by decide), skipBlanks_append blankBefore]
    simp only [memberText, List.cons_append, List.nil_append, List.append_assoc, quote_append,
      skipBlanks_cons (c := '"') (by decide)] at members ⊢
    simp [members]

end Objects

section Values

mutual

/-- What a value is read as, if its binary numbers are read as given. -/
@[simp] def Value.doc (float : Binary64 → Doc) : Value → Doc
  | .null => .null
  | .bool b => .bool b
  | .int n => .number (intLiteral n)
  | .float x => float x
  | .text s => .text (pieces s)
  | .array items => .array (docItems float items)
  | .object members => .object (docMembers float members)

def docItems (float : Binary64 → Doc) : List Value → List Doc
  | [] => []
  | item :: items => item.doc float :: docItems float items

def docMembers (float : Binary64 → Doc) : List (String × Value) → List (Quoted × Doc)
  | [] => []
  | (key, item) :: members => (pieces key, item.doc float) :: docMembers float members

end

mutual

/-- Whether every binary number in a value passes. -/
def Value.Floats (p : Binary64 → Prop) : Value → Prop
  | .float x => p x
  | .array items => FloatsItems p items
  | .object members => FloatsMembers p members
  | .null | .bool _ | .int _ | .text _ => True

def FloatsItems (p : Binary64 → Prop) : List Value → Prop
  | [] => True
  | item :: items => item.Floats p ∧ FloatsItems p items

def FloatsMembers (p : Binary64 → Prop) : List (String × Value) → Prop
  | [] => True
  | (_, item) :: members => item.Floats p ∧ FloatsMembers p members

end

variable {float : Binary64 → Doc} {p : Binary64 → Prop}

theorem compactItems_eq (items : List Value) : compactItems items = itemsText (items.map Value.compact) := by
  induction items with
  | nil => rfl
  | cons item items ih => simp [compactItems, itemsText, ih]

theorem compactMembers_eq (members : List (String × Value)) :
    compactMembers members = itemsText (members.map fun m => memberText m.1 m.2.compact) := by
  induction members with
  | nil => rfl
  | cons m members ih => simp [compactMembers, itemsText, memberText, ih]

theorem compact_array (items : List Value) :
    (Value.array items).compact = arrayText [] (items.map Value.compact) := by
  cases items <;> simp [Value.compact, arrayText, compactItems_eq]

theorem compact_object (members : List (String × Value)) :
    (Value.object members).compact = objectText [] (members.map fun m => memberText m.1 m.2.compact) := by
  cases members <;> simp [Value.compact, objectText, compactMembers_eq, memberText]

mutual

/-- The form without blanks reads as the value, if every binary number in it reads as given. -/
theorem Value.reads_compact (floats : ∀ x, p x → Reads (floatText x) (float x)) (v : Value) (each : v.Floats p) :
    Reads v.compact (v.doc float) := by
  match v with
  | .null => exact reads_null
  | .bool b => exact reads_bool b
  | .int n => exact reads_int n
  | .float x => exact floats x each
  | .text s => exact reads_text s
  | .array items =>
    rw [compact_array]
    exact .array blank_nil (reads_items floats items each)
  | .object members =>
    rw [compact_object]
    exact .object blank_nil (reads_members floats members each)

theorem reads_items (floats : ∀ x, p x → Reads (floatText x) (float x)) (items : List Value)
    (each : FloatsItems p items) :
    List.Forall₂ ReadsAmid (items.map Value.compact) (docItems float items) := by
  match items with
  | [] => exact .nil
  | item :: items =>
    exact .cons ⟨_, .refl _, item.reads_compact floats each.1⟩ (reads_items floats items each.2)

theorem reads_members (floats : ∀ x, p x → Reads (floatText x) (float x)) (members : List (String × Value))
    (each : FloatsMembers p members) :
    List.Forall₂ ReadsMember (members.map fun m => memberText m.1 m.2.compact) (docMembers float members) := by
  match members with
  | [] => exact .nil
  | (key, item) :: members =>
    exact .cons (@ReadsMember.intro _ _ key _ blank_nil ⟨_, .refl _, item.reads_compact floats each.1⟩)
      (reads_members floats members each.2)

end

theorem prettyMembers_eq (depth : Nat) (members : List (String × Value)) :
    prettyMembers depth members =
      itemsText (members.map fun m => newLine depth ++ memberText m.1 (' ' :: m.2.pretty depth)) := by
  induction members with
  | nil => rfl
  | cons m members ih => simp [prettyMembers, itemsText, memberText, ih]

/-- An object spread over lines has a blank after each colon. -/
theorem pretty_object (depth : Nat) (members : List (String × Value)) : ∃ after, Blank after ∧
    (Value.object members).pretty depth = objectText after
      (members.map fun m => newLine (depth + 1) ++ memberText m.1 (' ' :: m.2.pretty (depth + 1))) := by
  cases members with
  | nil => exact ⟨[], blank_nil, rfl⟩
  | cons first members =>
    exact ⟨newLine depth, newLine_blank depth, by simp [Value.pretty, objectText, prettyMembers_eq, memberText]⟩

mutual

/-- The form spread over lines reads as the value too, however deep. -/
theorem Value.reads_pretty (floats : ∀ x, p x → Reads (floatText x) (float x)) (v : Value) (depth : Nat)
    (each : v.Floats p) : Reads (v.pretty depth) (v.doc float) := by
  match v with
  | .null => exact reads_null
  | .bool b => exact reads_bool b
  | .int n => exact reads_int n
  | .float x => exact floats x each
  | .text s => exact reads_text s
  | .array items =>
    obtain ⟨after, blank, shape⟩ := pretty_array depth items
    rw [shape]
    exact .array blank (reads_prettyItems floats items (depth + 1) each)
  | .object members =>
    obtain ⟨after, blank, shape⟩ := pretty_object depth members
    rw [shape]
    exact .object blank (reads_prettyMembers floats members (depth + 1) each)

theorem reads_prettyItems (floats : ∀ x, p x → Reads (floatText x) (float x)) (items : List Value) (depth : Nat)
    (each : FloatsItems p items) :
    List.Forall₂ ReadsAmid (items.map fun item => newLine depth ++ item.pretty depth) (docItems float items) := by
  match items with
  | [] => exact .nil
  | item :: items =>
    exact .cons ⟨_, .lead (newLine_blank depth) _, item.reads_pretty floats depth each.1⟩
      (reads_prettyItems floats items depth each.2)

theorem reads_prettyMembers (floats : ∀ x, p x → Reads (floatText x) (float x)) (members : List (String × Value))
    (depth : Nat) (each : FloatsMembers p members) :
    List.Forall₂ ReadsMember
      (members.map fun m => newLine depth ++ memberText m.1 (' ' :: m.2.pretty depth))
      (docMembers float members) := by
  match members with
  | [] => exact .nil
  | (key, item) :: members =>
    have blank : Blank [' '] := by decide
    have first := item.reads_pretty floats depth each.1
    exact .cons (.intro (newLine_blank depth) ⟨_, .lead blank _, first⟩)
      (reads_prettyMembers floats members depth each.2)

end

/-- A value in which there are no binary numbers. -/
abbrev Value.Floatless (v : Value) : Prop := v.Floats fun _ => False

theorem intLiteral_inj {n m : Int} (same : intLiteral n = intLiteral m) : n = m := by
  obtain ⟨sign, digits, _⟩ := Literal.mk.inj same
  have value (n : Nat) : Nat.ofDigitChars 10 (naturalText n) 0 = n := Nat.ofDigitChars_ten_toDigits
  have magnitude : n.natAbs = m.natAbs := by rw [← value n.natAbs, digits, value]
  have signs : n < 0 ↔ m < 0 := by simpa using sign
  omega

mutual

/-- Values without binary numbers that read alike are equal. -/
theorem Value.doc_inj {v w : Value} (floatless : v.Floatless) (floatless' : w.Floatless)
    (same : v.doc float = w.doc float) : v = w := by
  match v, w with
  | .float _, _ => exact floatless.elim
  | _, .float _ => exact floatless'.elim
  | .null, .null => rfl
  | .bool _, .bool _ => cases same; rfl
  | .int _, .int _ => rw [intLiteral_inj (Doc.number.inj same)]
  | .text _, .text _ => rw [pieces_inj (Doc.text.inj same)]
  | .array _, .array _ => rw [docItems_inj floatless floatless' (Doc.array.inj same)]
  | .object _, .object _ => rw [docMembers_inj floatless floatless' (Doc.object.inj same)]

theorem docItems_inj {items items' : List Value} (floatless : FloatsItems (fun _ => False) items)
    (floatless' : FloatsItems (fun _ => False) items') (same : docItems float items = docItems float items') :
    items = items' := by
  match items, items' with
  | [], [] => rfl
  | item :: items, item' :: items' =>
    obtain ⟨first, others⟩ := List.cons.inj same
    rw [Value.doc_inj floatless.1 floatless'.1 first, docItems_inj floatless.2 floatless'.2 others]

theorem docMembers_inj {members members' : List (String × Value)}
    (floatless : FloatsMembers (fun _ => False) members) (floatless' : FloatsMembers (fun _ => False) members')
    (same : docMembers float members = docMembers float members') : members = members' := by
  match members, members' with
  | [], [] => rfl
  | (key, item) :: members, (key', item') :: members' =>
    obtain ⟨first, others⟩ := List.cons.inj same
    obtain ⟨keys, items⟩ := Prod.mk.inj first
    rw [pieces_inj keys, Value.doc_inj floatless.1 floatless'.1 items,
      docMembers_inj floatless.2 floatless'.2 others]

end

/-- No two values without binary numbers are written alike. -/
theorem compact_inj {v w : Value} (floatless : v.Floatless) (floatless' : w.Floatless) :
    v.compact = w.compact ↔ v = w := by
  refine ⟨fun same => ?_, fun same => same ▸ rfl⟩
  have none (x : Binary64) : False → Reads (floatText x) .null := False.elim
  have read := (v.reads_compact none floatless).reads [] (2 * v.compact.length) ends_nil (Nat.le_refl _)
  have read' := (w.reads_compact none floatless').reads [] (2 * w.compact.length) ends_nil (Nat.le_refl _)
  rw [same, read'] at read
  exact (Value.doc_inj floatless' floatless (Prod.mk.inj (Option.some.inj read)).1).symm

/-- The text of a value in UTF-8. -/
def Value.bytes (v : Value) : ByteArray := v.compactText.toUTF8

theorem bytes_inj {v w : Value} (floatless : v.Floatless) (floatless' : w.Floatless) :
    v.bytes = w.bytes ↔ v = w := by
  rw [← compact_inj floatless floatless', Value.bytes, Value.bytes]
  exact String.toByteArray_inj.trans String.ofList_inj

end Values

end Json

namespace Xxh64

open Json

/-- The number that hexadecimal digits stand for. -/
def hexValue (cs : List Char) : Nat := cs.foldl (fun n c => 16 * n + (hexDigit? c).getD 0) 0

theorem hexDigit?_digitChar : ∀ digit : Fin 16, hexDigit? (Nat.digitChar digit) = some digit.val := by decide

theorem hexValue_toDigits (n : Nat) : hexValue (Nat.toDigits 16 n) = n := by
  have last (digit : Nat) (small : digit < 16) : (hexDigit? (Nat.digitChar digit)).getD 0 = digit := by
    rw [hexDigit?_digitChar ⟨digit, small⟩, Option.getD_some]
  induction n using Nat.strongRecOn with
  | ind n ih =>
    by_cases small : n < 16
    · rw [Nat.toDigits_of_lt_base small, hexValue, List.foldl_cons, List.foldl_nil, last n small]
      omega
    · have less : n / 16 < n := by omega
      rw [Nat.toDigits_of_base_le (by decide) (by omega), hexValue, List.foldl_append, ← hexValue, ih _ less,
        List.foldl_cons, List.foldl_nil, last _ (Nat.mod_lt _ (by decide))]
      omega

theorem hexValue_padded (count : Nat) (cs : List Char) : hexValue (List.replicate count '0' ++ cs) = hexValue cs := by
  induction count with
  | zero => rfl
  | succ count ih => exact ih

theorem hexText_inj {a b : UInt64} : hexText a = hexText b ↔ a = b := by
  refine ⟨fun same => ?_, fun same => same ▸ rfl⟩
  have digits := String.ofList_inj.mp same
  rw [← UInt64.toNat_inj, ← hexValue_toDigits a.toNat, ← hexValue_padded, digits, hexValue_padded,
    hexValue_toDigits]

end Xxh64

end FeatureNet
