import FeatureNet.Json.Decode
import FeatureNet.Proofs.WrittenValues

namespace FeatureNet

namespace Json

open Decimal

section Lists

theorem mapM_eq_some_map {α β : Type} {read : α → Option β} {f : α → β} {l : List α}
    (each : ∀ a ∈ l, read a = some (f a)) : l.mapM read = some (l.map f) := by
  induction l with
  | nil => rfl
  | cons a l ih =>
    have others := ih fun b member => each b (List.mem_cons_of_mem _ member)
    simp [each a (List.mem_cons_self ..), others]

theorem mapM_eq_some {α : Type} {read : α → Option α} {l : List α} (each : ∀ a ∈ l, read a = some a) :
    l.mapM read = some l := by rw [mapM_eq_some_map each, List.map_id']

/-- Among members of distinct names there is one of each name. -/
theorem filter_name {α : Type} {l : List (String × α)} (distinct : (l.map (·.1)).Nodup) {m : String × α}
    (member : m ∈ l) : l.filter (·.1 = m.1) = [m] := by
  induction l with
  | nil => cases member
  | cons first rest ih =>
    obtain ⟨fresh, distinct⟩ := List.nodup_cons.mp distinct
    have others {m' : String × α} (member : m' ∈ rest) : m'.1 ≠ first.1 := fun same =>
      fresh (List.mem_map.mpr ⟨m', member, same⟩)
    rcases List.mem_cons.mp member with rfl | member
    · rw [List.filter_cons_of_pos (by simp), List.filter_eq_nil_iff.mpr fun m' member => by simpa using others member]
    · rw [List.filter_cons_of_neg (by simpa using (others member).symm), ih distinct member]

end Lists

section Keys

/-- No sign and no digit of a number is a control character. -/
theorem piece_of_mem_integerText {n : Int} {c : Char} (member : c ∈ integerText n) : piece c = .plain c := by
  have digit {m : Nat} (member : c ∈ naturalText m) : ¬c < ' ' := by
    have digit := isDigit_of_mem_naturalText member
    simp only [Char.isDigit, Bool.and_eq_true, decide_eq_true_eq] at digit
    exact UInt32.not_lt.mpr (UInt32.le_trans (by decide) digit.1)
  have solid : ¬c < ' ' := by
    unfold integerText at member
    split at member
    · rcases List.mem_cons.mp member with rfl | more
      · decide
      · exact digit more
    · exact digit member
  exact if_neg fun both => solid both.1

theorem id?_pieces (id : FeatureId) : Quoted.id? (pieces id.text) = some id := by
  have plain (read : Piece → Option Char) (kept : ∀ c, read (.plain c) = some c) :
      (pieces id.text).mapM read = some (integerText id.toInt) := by
    rw [pieces, FeatureId.text, String.toList_ofList, List.mapM_map]
    refine mapM_eq_some fun c member => ?_
    rw [Function.comp_apply, piece_of_mem_integerText member, kept]
  have literal := readLiteral_integerText id.toInt ends_nil
  rw [List.append_nil] at literal
  rw [Quoted.id?, plain _ fun _ => rfl]
  simp [literal, id?_intLiteral]

end Keys

section Numbers

/-- What a text of a binary number is read as. -/
def floatDoc (x : Binary64) : Doc := (Doc.read? (Value.float x).compactText).getD .null

/-- What a value is read as from either of its forms. -/
def Value.parsed (v : Value) : Doc := v.doc floatDoc

/-- Whether a number is read back from its text: a whole number if it fits in 64 bits, with a sign or without,
a binary number if it is finite and its text is read as the same bits. -/
def Number.Returns : Number → Prop
  | .int n => -0x8000000000000000 ≤ n ∧ n ≤ 0xFFFFFFFFFFFFFFFF
  | .float x => x.isFinite = true ∧ (Doc.read? (Value.float x).compactText).bind Doc.float? = some x

mutual

/-- The numbers in a value. -/
def Value.numbers : Value → List Number
  | .int n => [.int n]
  | .float x => [.float x]
  | .array items => numbersOfItems items
  | .object members => numbersOfMembers members
  | .null | .bool _ | .text _ => []

def numbersOfItems : List Value → List Number
  | [] => []
  | item :: items => item.numbers ++ numbersOfItems items

def numbersOfMembers : List (String × Value) → List Number
  | [] => []
  | (_, item) :: members => item.numbers ++ numbersOfMembers members

end

/-- Whether every number in a value is read back from its text. -/
def Value.Returns (v : Value) : Prop := ∀ n ∈ v.numbers, n.Returns

instance : (n : Number) → Decidable n.Returns
  | .int n => inferInstanceAs (Decidable (-0x8000000000000000 ≤ n ∧ n ≤ 0xFFFFFFFFFFFFFFFF))
  | .float x => decidable_of_iff (x.isFinite = true ∧ (Doc.ofChars? (floatText x)).bind Doc.float? = some x) (by
      rw [Number.Returns, Doc.read?, Value.compactText, String.toList_ofList]
      rfl)

instance (v : Value) : Decidable v.Returns := List.decidableBAll Number.Returns v.numbers

variable {α : Type} {write : α → Value} {v : Value} {x : Binary64} {members : List (String × Value)}

theorem returns_array {items : List Value} : (Value.array items).Returns ↔ ∀ item ∈ items, item.Returns := by
  have general : (∀ n ∈ numbersOfItems items, n.Returns) ↔ ∀ item ∈ items, item.Returns := by
    induction items with
    | nil => simp [numbersOfItems]
    | cons item items ih =>
      rw [numbersOfItems, List.forall_mem_append, ih, List.forall_mem_cons, Value.Returns]
  rw [Value.Returns, Value.numbers, general]

theorem returns_object {members : List (String × Value)} :
    (Value.object members).Returns ↔ ∀ m ∈ members, m.2.Returns := by
  have general : (∀ n ∈ numbersOfMembers members, n.Returns) ↔ ∀ m ∈ members, m.2.Returns := by
    induction members with
    | nil => simp [numbersOfMembers]
    | cons m members ih =>
      rw [numbersOfMembers, List.forall_mem_append, ih, List.forall_mem_cons, Value.Returns]
  rw [Value.Returns, Value.numbers, general]

theorem Value.Returns.member (returns : (Value.object members).Returns) (name : String)
    (member : (name, v) ∈ members) : v.Returns :=
  returns_object.mp returns (name, v) member

theorem Value.Returns.item {l : List α} (returns : (Value.array (l.map write)).Returns) {a : α} (member : a ∈ l) :
    (write a).Returns :=
  returns_array.mp returns (write a) (List.mem_map_of_mem member)

theorem Value.Returns.fields {tag : String} (returns : (taggedValue tag members).Returns) :
    (Value.object members).Returns :=
  returns_object.mpr fun m member => returns_object.mp returns m (List.mem_cons_of_mem _ member)

/-- Every id fits in 64 bits. -/
theorem returns_idValue (id : FeatureId) : (idValue id).Returns := by
  intro n member
  obtain rfl := List.mem_singleton.mp member
  have least := Int64.le_toInt id.value
  have most := Int64.toInt_lt id.value
  exact ⟨least, by unfold FeatureId.toInt; omega⟩

theorem returns_optionValue (id : Option FeatureId) : (optionValue idValue id).Returns := by
  cases id with
  | none => exact fun _ member => absurd member List.not_mem_nil
  | some id => exact returns_idValue id

theorem returns_idsValue (ids : List FeatureId) : (idsValue ids).Returns :=
  returns_array.mpr (List.forall_mem_map.mpr fun id _ => returns_idValue id)

theorem returns_bool (b : Bool) : (Value.bool b).Returns := fun _ member => absurd member List.not_mem_nil

mutual

theorem Value.Returns.floats {v : Value} (returns : v.Returns) : v.Floats fun x => (Number.float x).Returns := by
  match v with
  | .float x => exact returns _ (List.mem_singleton_self _)
  | .array items => exact floatsItems_of_returns (returns_array.mp returns)
  | .object members => exact floatsMembers_of_returns (returns_object.mp returns)
  | .null | .bool _ | .int _ | .text _ => trivial

theorem floatsItems_of_returns {items : List Value} (each : ∀ item ∈ items, item.Returns) :
    FloatsItems (fun x => (Number.float x).Returns) items := by
  match items with
  | [] => trivial
  | item :: items =>
    obtain ⟨first, others⟩ := List.forall_mem_cons.mp each
    exact ⟨first.floats, floatsItems_of_returns others⟩

theorem floatsMembers_of_returns {members : List (String × Value)} (each : ∀ m ∈ members, m.2.Returns) :
    FloatsMembers (fun x => (Number.float x).Returns) members := by
  match members with
  | [] => trivial
  | (_, item) :: members =>
    obtain ⟨first, others⟩ := List.forall_mem_cons.mp each
    exact ⟨Value.Returns.floats first, floatsMembers_of_returns others⟩

end

theorem Number.Returns.reads (returns : (Number.float x).Returns) : Reads (floatText x) (floatDoc x) := by
  obtain ⟨l, proper, text⟩ := exists_floatText returns.1
  have reads : Reads (floatText x) (.number l) := text ▸ proper.reads
  have read : Doc.ofChars? (Value.float x).compact = some (.number l) := ReadsAmid.ofChars? ⟨_, .refl _, reads⟩
  rw [floatDoc, Doc.read?, Value.compactText, String.toList_ofList, read]
  exact reads

theorem Number.Returns.float? (returns : (Number.float x).Returns) : (floatDoc x).float? = some x := by
  obtain ⟨d, read, value⟩ := Option.bind_eq_some_iff.mp returns.2
  rwa [floatDoc, read]

/-- Both forms of a value are read as one and the same. -/
theorem Value.Returns.read? (returns : v.Returns) :
    Doc.read? v.compactText = some v.parsed ∧ Doc.read? v.prettyText = some v.parsed := by
  have numbers (x : Binary64) : (Number.float x).Returns → Reads (floatText x) (floatDoc x) := Number.Returns.reads
  have compact : ReadsAmid v.compact v.parsed := ⟨_, .refl _, v.reads_compact numbers returns.floats⟩
  have pretty : ReadsAmid (v.pretty 0) v.parsed := ⟨_, .refl _, v.reads_pretty numbers 0 returns.floats⟩
  constructor
  · rw [Doc.read?, Value.compactText, String.toList_ofList, compact.ofChars?]
  · rw [Doc.read?, Value.prettyText, String.toList_ofList, pretty.ofChars?]

end Numbers

section Readers

variable {α : Type} {write : α → Value} {read : Doc → Option α} {x : Binary64} {n : Nat}

theorem parsed_array (items : List Value) : (Value.array items).parsed = .array (items.map Value.parsed) := by
  have general : docItems floatDoc items = items.map Value.parsed := by
    induction items with
    | nil => rfl
    | cons item items ih => rw [docItems, ih, List.map_cons, Value.parsed]
  rw [Value.parsed, Value.doc, general]

theorem parsed_object (members : List (String × Value)) :
    (Value.object members).parsed = .object (members.map fun m => (pieces m.1, m.2.parsed)) := by
  have general : docMembers floatDoc members = members.map fun m => (pieces m.1, m.2.parsed) := by
    induction members with
    | nil => rfl
    | cons m members ih => rw [docMembers, ih, List.map_cons, Value.parsed]
  rw [Value.parsed, Value.doc, general]

theorem id?_parsed (id : FeatureId) : (idValue id).parsed.id? = some id := id?_intLiteral id

theorem Value.Returns.float? (returns : (Value.float x).Returns) : (Value.float x).parsed.float? = some x :=
  Number.Returns.float? (returns _ (List.mem_singleton_self _))

theorem Value.Returns.natural? (returns : (naturalValue n).Returns) : (naturalValue n).parsed.natural? = some n := by
  obtain ⟨least, most⟩ := returns (.int n) (List.mem_singleton_self _)
  have number : (naturalValue n).parsed.int? = some n := by
    simp [naturalValue, Value.parsed, Doc.int?, number?_intLiteral least most]
  simp [Doc.natural?, number, most]

theorem bool?_parsed (b : Bool) : (Value.bool b).parsed.bool? = some b := rfl

theorem string?_parsed (s : String) : (Value.text s).parsed.string? = some s := string?_pieces s

theorem name?_parsed (s : String) : (Value.text s).parsed.name? = some s := string?_pieces s

theorem freeName?_parsed (s : String) : (Value.text s).parsed.freeName? = some s := string?_pieces s

theorem list?_parsed {l : List α} (each : ∀ a ∈ l, read (write a).parsed = some a) :
    (Value.array (l.map write)).parsed.list? read = some l := by
  rw [parsed_array, Doc.list?, List.mapM_map, List.mapM_map]
  exact mapM_eq_some each

theorem ids?_parsed (ids : List FeatureId) : (idsValue ids).parsed.list? Doc.id? = some ids :=
  list?_parsed fun id _ => id?_parsed id

theorem idSet?_parsed (s : IdSet) : (idsValue s.toList).parsed.idSet? = some s := by
  rw [Doc.idSet?, ids?_parsed, Option.map_some, IdSet.ofList_toList]

theorem idMap?_parsed {m : IdMap α} (each : ∀ e ∈ m.entries, read (write e.2).parsed = some e.2) :
    (idMapValue write m).parsed.idMap? read = some m := by
  rw [idMapValue, parsed_object, Doc.idMap?, List.mapM_map, List.mapM_map,
    mapM_eq_some fun e member => by simp [id?_pieces, each e member], Option.map_some, IdMap.ofList_entries]

/-- The fields of a structure are read in order, if no two have one name. -/
theorem fields?_parsed {members : List (String × Value)} {names : List String} (same : members.map (·.1) = names)
    (distinct : names.Nodup) :
    (Value.object members).parsed.fields? names = some (members.map fun m => .value m.2.parsed) := by
  subst same
  have given (m : String × Value) (member : m ∈ members) :
      givenIn (members.map fun m => (m.1, m.2.parsed)) m.1 = some (.value m.2.parsed) := by
    have distinct' : ((members.map fun m => (m.1, m.2.parsed)).map (·.1)).Nodup := by
      rwa [List.map_map]
    rw [givenIn, filter_name distinct' (List.mem_map_of_mem member)]
  rw [parsed_object, Doc.fields?, List.mapM_map,
    mapM_eq_some_map (f := fun m => (m.1, m.2.parsed)) fun m _ => by simp [string?_pieces]]
  simp only [Option.bind_eq_bind, Option.bind_some, List.mapM_map]
  exact mapM_eq_some_map given

theorem optional_parsed (id : Option FeatureId) :
    Given.optional Doc.id? (.value (optionValue idValue id).parsed) = some id := by
  cases id with
  | none => rfl
  | some id => exact congrArg (Option.map some) (id?_parsed id)

end Readers

section Tags

/-- Whether a value has at most so many levels of nesting. -/
@[simp] def Value.Within : Nat → Value → Prop
  | _, .null | _, .bool _ | _, .int _ | _, .float _ | _, .text _ => True
  | 0, .array _ | 0, .object _ => False
  | levels + 1, .array items => ∀ item ∈ items, item.Within levels
  | levels + 1, .object members => ∀ m ∈ members, m.2.Within levels

variable {levels : Nat} {v : Value}

theorem settleItems?_isSome {docs : List Doc} (each : ∀ d ∈ docs, (d.settle? levels).isSome) :
    (settleItems? levels docs).isSome := by
  induction docs with
  | nil => rfl
  | cons d docs ih =>
    obtain ⟨first, others⟩ := List.forall_mem_cons.mp each
    obtain ⟨item, first⟩ := Option.isSome_iff_exists.mp first
    obtain ⟨items, others⟩ := Option.isSome_iff_exists.mp (ih others)
    simp [settleItems?, first, others]

theorem settleMembers?_isSome {members : List (String × Value)}
    (each : ∀ m ∈ members, (m.2.parsed.settle? levels).isSome) :
    (settleMembers? levels (members.map fun m => (pieces m.1, m.2.parsed))).isSome := by
  induction members with
  | nil => rfl
  | cons m members ih =>
    obtain ⟨first, others⟩ := List.forall_mem_cons.mp each
    obtain ⟨item, first⟩ := Option.isSome_iff_exists.mp first
    obtain ⟨items, others⟩ := Option.isSome_iff_exists.mp (ih others)
    simp [settleMembers?, first, others, string?_pieces]

/-- A value makes sense as a text of free form, if it is not nested too deep. -/
theorem Value.Returns.settles : ∀ {levels : Nat} {v : Value}, v.Returns → v.Within levels →
    (v.parsed.settle? levels).isSome
  | _, .null, _, _ => rfl
  | _, .bool _, _, _ => rfl
  | _, .text s, _, _ => by simp [Value.parsed, Doc.settle?, string?_pieces]
  | _, .int n, returns, _ => by
    obtain ⟨least, most⟩ := returns (.int n) (List.mem_singleton_self _)
    simp [Value.parsed, Doc.settle?, number?_intLiteral least most]
  | _, .float x, returns, _ => by
    have value := returns.float?
    cases shape : (Value.float x).parsed with
    | number l =>
      rw [shape] at value
      obtain ⟨n, number, _⟩ := Option.map_eq_some_iff.mp value
      simp [Doc.settle?, number]
    | _ => simp [shape, Doc.float?] at value
  | levels + 1, .array items, returns, within => by
    have each : ∀ d ∈ items.map Value.parsed, (d.settle? levels).isSome := by
      rw [List.forall_mem_map]
      exact fun item member => (returns_array.mp returns item member).settles (within item member)
    rw [parsed_array, Doc.settle?]
    simpa using settleItems?_isSome each
  | levels + 1, .object members, returns, within => by
    have each : ∀ m ∈ members, (m.2.parsed.settle? levels).isSome :=
      fun m member => (returns_object.mp returns m member).settles (within m member)
    rw [parsed_object, Doc.settle?]
    simpa using settleMembers?_isSome each
  | 0, .array _, _, within | 0, .object _, _, within => within.elim

/-- The tag of a choice is told from its fields, if none of them has the tag's key. -/
theorem tagged?_object {tag : String} {fields : List (Quoted × Doc)}
    (settles : ((Doc.object ((pieces "type", .text (pieces tag)) :: fields)).settle? depthLimit).isSome)
    (untagged : ∀ m ∈ fields, m.1.string? ≠ some "type") :
    (Doc.object ((pieces "type", .text (pieces tag)) :: fields)).tagged? = some (tag, .object fields) := by
  obtain ⟨_, settled⟩ := Option.isSome_iff_exists.mp settles
  have tags : fields.filter (fun m => m.1.string? = some "type") = [] :=
    List.filter_eq_nil_iff.mpr fun m member => by simpa using untagged m member
  have others : fields.filter (fun m => !decide (m.1.string? = some "type")) = fields :=
    List.filter_eq_self.mpr fun m member => by simpa using untagged m member
  simp [Doc.tagged?, settled, string?_pieces, tags, others, Doc.string?]

theorem tagged?_parsed {tag : String} {members : List (String × Value)}
    (returns : (taggedValue tag members).Returns) (within : (taggedValue tag members).Within depthLimit)
    (untagged : "type" ∉ members.map (·.1)) :
    (taggedValue tag members).parsed.tagged? = some (tag, (Value.object members).parsed) := by
  have shape : (taggedValue tag members).parsed = .object ((pieces "type", .text (pieces tag)) ::
      members.map fun m => (pieces m.1, m.2.parsed)) := parsed_object _
  have settles := returns.settles within
  rw [shape] at settles ⊢
  rw [parsed_object, tagged?_object settles]
  intro m member
  obtain ⟨field, listed, rfl⟩ := List.mem_map.mp member
  rw [string?_pieces]
  exact fun same => untagged (List.mem_map.mpr ⟨field, listed, Option.some.inj same⟩)

end Tags

end Json

end FeatureNet
