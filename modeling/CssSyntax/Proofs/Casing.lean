import CssSyntax.Lexeme

/-!
Keywords ignore the case of ASCII letters and nothing else. Lowering works on the bytes of a text,
where no byte of a code point beyond ASCII looks like a capital, and the bound on the number of
bytes turns no word away that equals a keyword.
-/

namespace CssSyntax

namespace Text

theorem toLower_eq_self {c : Char} (h : c.isUpper = false) : c.toLower = c :=
  dif_neg fun within => by
    have upper : c.isUpper = true := decide_eq_true within
    exact absurd (h.symm.trans upper) (by decide)

theorem ascii_of_isUpper {c : Char} (upper : c.isUpper) : c.val ≤ 127 := by
  have most : c.val ≤ 'Z'.val := (of_decide_eq_true upper).2
  exact UInt32.le_trans most (by decide)

theorem ascii_toLower {c : Char} (ascii : c.val ≤ 127) : c.toLower.val ≤ 127 := by
  unfold Char.toLower
  split
  · next upper =>
      obtain ⟨-, most⟩ := upper
      rw [UInt32.le_iff_toNat_le] at most ⊢
      rw [UInt32.toNat_add]
      change (c.val.toNat + 32) % 2 ^ 32 ≤ 127
      change c.val.toNat ≤ 90 at most
      omega
  · exact ascii

@[simp] theorem utf8Size_toLower (c : Char) : c.toLower.utf8Size = c.utf8Size := by
  cases upper : c.isUpper with
  | false => rw [toLower_eq_self upper]
  | true =>
      have ascii := ascii_of_isUpper upper
      rw [Char.utf8Size_eq_one_iff.mpr ascii, Char.utf8Size_eq_one_iff.mpr (ascii_toLower ascii)]

@[simp] theorem byteLength_lower (text : Text) : byteLength (lower text) = byteLength text := by
  induction text with
  | nil => rfl
  | cons c rest ih => simp [ih]

theorem isUpperByte_toUInt8 {c : Char} (ascii : c.val ≤ 127) :
    isUpperByte c.val.toUInt8 = c.isUpper := by
  rw [UInt32.le_iff_toNat_le] at ascii
  have small : c.val.toNat % 256 = c.val.toNat :=
    Nat.mod_eq_of_lt (Nat.lt_of_le_of_lt ascii (by decide))
  have isUpper : c.isUpper = decide ('A'.val ≤ c.val ∧ c.val ≤ 'Z'.val) := rfl
  simp only [isUpperByte, isUpper, UInt8.le_iff_toNat_le, UInt32.le_iff_toNat_le,
    UInt32.toNat_toUInt8, small]
  exact (Bool.decide_and _ _).symm

/-- A code point of one byte is lowered as its byte is. -/
theorem lowerByte_toUInt8 {c : Char} (ascii : c.val ≤ 127) :
    lowerByte c.val.toUInt8 = c.toLower.val.toUInt8 := by
  rw [lowerByte, isUpperByte_toUInt8 ascii]
  cases upper : c.isUpper with
  | false =>
      rw [toLower_eq_self upper]
      rfl
  | true =>
      have lowered : c.toLower.val = c.val + ('a'.val - 'A'.val) :=
        congrArg Char.val (dif_pos (of_decide_eq_true upper))
      rw [lowered, UInt32.toUInt8_add]
      rfl

/-- A code point beyond ASCII takes bytes that are all beyond ASCII. -/
theorem le_of_mem_utf8EncodeChar {c : Char} (beyond : ¬c.val ≤ 127) :
    ∀ b ∈ String.utf8EncodeChar c, 128 ≤ b.toNat := by
  have marked (bits mark : Nat) (h : 128 ≤ mark) : 128 ≤ bits ||| mark :=
    Nat.le_trans h Nat.right_le_or
  have many : c.utf8Size ≠ 1 := mt Char.utf8Size_eq_one_iff.mp beyond
  rcases c.utf8Size_eq with one | two | three | four
  · exact absurd one many
  · rw [String.utf8EncodeChar_eq_cons_cons two]
    simp [marked]
  · rw [String.utf8EncodeChar_eq_cons_cons_cons three]
    simp [marked]
  · rw [String.utf8EncodeChar_eq_cons_cons_cons_cons four]
    simp [marked]

theorem isUpperByte_of_not_ascii {c : Char} (beyond : ¬c.val ≤ 127) :
    ∀ b ∈ String.utf8EncodeChar c, isUpperByte b = false := by
  intro b mem
  have above := le_of_mem_utf8EncodeChar beyond b mem
  simp only [isUpperByte, Bool.and_eq_false_iff, decide_eq_false_iff_not, UInt8.le_iff_toNat_le]
  have most : (90 : UInt8).toNat = 90 := rfl
  omega

theorem map_lowerByte_of_plain {bytes : List UInt8} (plain : ∀ b ∈ bytes, isUpperByte b = false) :
    bytes.map lowerByte = bytes := by
  have same : ∀ b ∈ bytes, lowerByte b = id b := by
    intro b mem
    simp [lowerByte, plain b mem]
  exact (List.map_congr_left same).trans (List.map_id bytes)

/-- Lowering the bytes of a code point lowers the code point. -/
theorem map_lowerByte_utf8EncodeChar (c : Char) :
    (String.utf8EncodeChar c).map lowerByte = String.utf8EncodeChar c.toLower := by
  by_cases ascii : c.val ≤ 127
  · have one : c.utf8Size = 1 := Char.utf8Size_eq_one_iff.mpr ascii
    rw [String.utf8EncodeChar_eq_singleton one, List.map_singleton, lowerByte_toUInt8 ascii,
      String.utf8EncodeChar_eq_singleton ((utf8Size_toLower c).trans one)]
  · have low : c.isUpper = false :=
      Bool.eq_false_iff.mpr fun upper => ascii (ascii_of_isUpper upper)
    rw [toLower_eq_self low]
    exact map_lowerByte_of_plain (isUpperByte_of_not_ascii ascii)

@[simp] theorem map_lowerByte_utf8 (text : Text) :
    (utf8 text).map lowerByte = utf8 (lower text) := by
  induction text with
  | nil => rfl
  | cons c rest ih => simp [map_lowerByte_utf8EncodeChar, ih]

/-- Lowering bytes from the first capital on lowers all of them. -/
theorem lower_from_first {bytes : List UInt8} {first : Nat}
    (h : bytes.findIdx? isUpperByte = some first) :
    bytes.take first ++ (bytes.drop first).map lowerByte = bytes.map lowerByte := by
  obtain ⟨within, -, before⟩ := List.findIdx?_eq_some_iff_getElem.mp h
  have plain : ∀ b ∈ bytes.take first, isUpperByte b = false := by
    intro b mem
    obtain ⟨i, less, rfl⟩ := List.getElem_of_mem mem
    rw [List.length_take] at less
    rw [List.getElem_take]
    exact Bool.eq_false_iff.mpr (before i (by omega))
  calc
    bytes.take first ++ (bytes.drop first).map lowerByte =
        (bytes.take first).map lowerByte ++ (bytes.drop first).map lowerByte := by
      rw [map_lowerByte_of_plain plain]
    _ = bytes.map lowerByte := by rw [← List.map_append, List.take_append_drop]

/-- What stood in a buffer has no part in what is copied over it. -/
theorem zipWith_take {buffer bytes : List UInt8} (fits : bytes.length ≤ buffer.length) :
    List.zipWith (fun _ b => b) (buffer.take bytes.length) bytes = bytes := by
  induction bytes generalizing buffer with
  | nil => simp
  | cons b bytes ih =>
      have nonempty : 0 < buffer.length := Nat.lt_of_lt_of_le (Nat.succ_pos _) fits
      obtain ⟨old, buffer, rfl⟩ := List.exists_cons_of_length_pos nonempty
      rw [List.length_cons, List.take_succ_cons, List.zipWith_cons_cons,
        ih (Nat.le_of_succ_le_succ fits)]

/-- Whatever stands in the buffer, a text that fits it is given back lowered. -/
theorem lowerIn_eq (buffer : List UInt8) (text : Text) :
    lowerIn buffer text =
      if byteLength text ≤ buffer.length then some (lower text) else none := by
  rw [← length_utf8, lowerIn]
  split
  · next fits =>
      cases found : (utf8 text).findIdx? isUpperByte with
      | none =>
          have plain : ∀ b ∈ utf8 text, isUpperByte b = false := List.findIdx?_eq_none_iff.mp found
          have same := map_lowerByte_of_plain plain
          have decoded := congrArg ofUtf8? same
          simpa using decoded.symm
      | some first =>
          simp only [zipWith_take fits, lower_from_first found, map_lowerByte_utf8, ofUtf8?_utf8]
  · rfl

theorem lowerWithin_eq (capacity : Nat) (text : Text) :
    lowerWithin capacity text =
      if byteLength text ≤ capacity then some (lower text) else none := by
  rw [lowerWithin, lowerIn_eq, List.length_replicate]

/-- A text without capitals is lowered to itself. -/
theorem lower_eq_self {text : Text} (low : ∀ c ∈ text, c.isUpper = false) :
    lower text = text := by
  have same : ∀ c ∈ text, c.toLower = id c := fun c mem => toLower_eq_self (low c mem)
  exact (List.map_congr_left same).trans (List.map_id text)

end Text

namespace Keywords

open Text (lower byteLength)

variable {α : Type} {keywords : Keywords α}

/-- A table that keywords are looked up in: no key has a capital, and none is there twice. -/
structure IsTable (keywords : Keywords α) : Prop where
  low : ∀ entry ∈ keywords, ∀ c ∈ entry.1, c.isUpper = false
  distinct : (keywords.map Prod.fst).Nodup

theorem lookup?_eq_some_iff (distinct : (keywords.map Prod.fst).Nodup) (word : Text) (value : α) :
    keywords.lookup? word = some value ↔ (word, value) ∈ keywords := by
  induction keywords with
  | nil => simp [lookup?]
  | cons entry keywords ih =>
      obtain ⟨key, found⟩ := entry
      rw [List.map_cons, List.nodup_cons] at distinct
      by_cases same : key = word
      · subst same
        have missing : (key, value) ∉ keywords :=
          fun mem => distinct.1 (List.mem_map.mpr ⟨_, mem, rfl⟩)
        simp [lookup?, missing, eq_comm]
      · have here := ih distinct.2
        unfold lookup? at here ⊢
        simp [same, Ne.symm same, here]

theorem le_capacity {entry : Text × α} (mem : entry ∈ keywords) :
    byteLength entry.1 ≤ keywords.capacity := by
  have bound (lengths : List Nat) (least : Nat) :
      least ≤ lengths.foldl max least ∧ ∀ length ∈ lengths, length ≤ lengths.foldl max least := by
    induction lengths generalizing least with
    | nil => simp
    | cons first lengths ih =>
        obtain ⟨above, all⟩ := ih (max least first)
        rw [List.foldl_cons, List.forall_mem_cons]
        exact ⟨by omega, by omega, all⟩
  exact (bound _ 0).2 _ (List.mem_map_of_mem mem)

/-- A word is found under the key that it equals but for case. The bound on the length of words
turns none of those away. -/
theorem find?_eq_some_iff (table : keywords.IsTable) (word : Text) (value : α) :
    keywords.find? word = some value ↔
      ∃ key, (key, value) ∈ keywords ∧ lower word = lower key := by
  have key_eq {key : Text} (mem : (key, value) ∈ keywords) : lower key = key :=
    Text.lower_eq_self (table.low _ mem)
  rw [find?, Text.lowerWithin_eq]
  split
  · rw [Option.bind_some, lookup?_eq_some_iff table.distinct]
    constructor
    · intro mem
      exact ⟨lower word, mem, (key_eq mem).symm⟩
    · rintro ⟨key, mem, same⟩
      rw [same, key_eq mem]
      exact mem
  · next long =>
      constructor
      · intro found
        cases found
      · rintro ⟨key, mem, same⟩
        have short := le_capacity mem
        rw [← Text.byteLength_lower, ← same, Text.byteLength_lower] at short
        exact absurd short long

theorem find?_eq_none_iff (table : keywords.IsTable) (word : Text) :
    keywords.find? word = none ↔ ∀ entry ∈ keywords, lower word ≠ lower entry.1 := by
  rw [Option.eq_none_iff_forall_ne_some]
  constructor
  · intro missing entry mem same
    exact missing entry.2 ((find?_eq_some_iff table word entry.2).mpr ⟨entry.1, mem, same⟩)
  · intro differs value found
    obtain ⟨key, mem, same⟩ := (find?_eq_some_iff table word value).mp found
    exact differs _ mem same

/-- The lone capital that a word too long is compared as is no key. -/
theorem select_eq (table : keywords.IsTable) (otherwise : α) (word : Text) :
    keywords.select otherwise word = (keywords.find? word).getD otherwise := by
  have capital : keywords.lookup? ['A'] = none := by
    rw [Option.eq_none_iff_forall_ne_some]
    intro value found
    have mem := (lookup?_eq_some_iff table.distinct _ _).mp found
    exact absurd (table.low _ mem 'A' List.mem_cons_self) (by decide)
  rw [select, find?]
  cases Text.lowerWithin keywords.capacity word with
  | some lowered => rfl
  | none =>
      rw [Option.getD_none, capital]
      rfl

/-- Through a buffer of whatever length and content, a text is lowered if it fits there and refused
otherwise. So looking a word of any length up gives the value of a key if the word equals that key
but for the case of ASCII letters, and gives nothing, or what else was asked for, if it equals
none. -/
theorem ignores_case :
    (∀ (buffer : List UInt8) (text : Text),
      Text.lowerIn buffer text =
        if buffer.length < (Text.utf8 text).length then none else some (lower text)) ∧
    ∀ {α : Type} {keywords : Keywords α}, keywords.IsTable →
      ∀ (word : Text) (value otherwise : α),
        (keywords.find? word = some value ↔
          ∃ key, (key, value) ∈ keywords ∧ lower word = lower key) ∧
        (keywords.find? word = none ↔ ∀ entry ∈ keywords, lower word ≠ lower entry.1) ∧
        (keywords.select otherwise word = value ↔
          (∃ key, (key, value) ∈ keywords ∧ lower word = lower key) ∨
            otherwise = value ∧ ∀ entry ∈ keywords, lower word ≠ lower entry.1) := by
  constructor
  · intro buffer text
    rw [Text.lowerIn_eq, Text.length_utf8]
    by_cases fits : byteLength text ≤ buffer.length
    · rw [if_pos fits, if_neg (Nat.not_lt_of_le fits)]
    · rw [if_neg fits, if_pos (Nat.lt_of_not_le fits)]
  · intro α keywords table word value otherwise
    have found := find?_eq_some_iff table word
    have missing := find?_eq_none_iff table word
    refine ⟨found value, missing, ?_⟩
    rw [select_eq table, ← found, ← missing]
    cases keywords.find? word <;> simp

/-- Two keywords of which one begins with the other, and a buffer longer than the word. -/
theorem ignores_case_prefix :
    let short : Text := ['u', 'r', 'l']
    let long : Text := ['u', 'r', 'l', '-', 'p']
    let word : Text := ['U', 'r', 'l', '-', 'P']
    let keywords : Keywords Nat := [(short, 1), (long, 2)]
    keywords.IsTable ∧ Text.lowerIn [0x41, 0x5A, 0xC3, 0x41, 0xFF, 0x5A] word = some long ∧
      keywords.find? word = some 2 ∧ keywords.select 0 word = 2 := by
  intro short long word keywords
  have table : keywords.IsTable :=
    ⟨by simp [keywords, short, long], by simp [keywords, short, long]⟩
  obtain ⟨lowered, looked⟩ := ignores_case
  obtain ⟨found, -, selected⟩ := looked table word 2 0
  have named : ∃ key, (key, 2) ∈ keywords ∧ lower word = lower key := ⟨long, by decide, by decide⟩
  refine ⟨table, ?_, found.mpr named, selected.mpr (.inl named)⟩
  rw [lowered]
  decide

end Keywords

/-- A word is the name of urls if it equals `url` in any case. -/
theorem isUrlName_iff (name : Text) : isUrlName name ↔ name.lower = ['u', 'r', 'l'] := by
  have table : Keywords.IsTable [(['u', 'r', 'l'], true)] := ⟨by simp, by simp⟩
  have isTrue (found : Option Bool) : found.getD false ↔ found = some true := by
    cases found <;> simp
  rw [isUrlName, Keywords.select_eq table, isTrue, Keywords.find?_eq_some_iff table]
  constructor
  · rintro ⟨key, mem, same⟩
    cases List.mem_singleton.mp mem
    exact same
  · intro same
    exact ⟨_, List.mem_cons_self, same⟩

namespace Kind

open Text (lower)

/-- The table of names is `name` read backwards. -/
theorem keywords_eq : keywords = all.map fun kind => (kind.name.toList, kind) := by decide

@[simp] theorem mem_keywords_iff (word : Text) (kind : Kind) :
    (word, kind) ∈ keywords ↔ word = kind.name.toList := by
  rw [keywords_eq, List.mem_map]
  constructor
  · rintro ⟨found, -, same⟩
    cases same
    rfl
  · intro named
    exact ⟨kind, mem_all kind, by rw [named]⟩

/-- Names are in lower case. -/
theorem not_isUpper_name (kind : Kind) : ∀ c ∈ kind.name.toList, c.isUpper = false := by
  have low : kind.name.toList.all (!Char.isUpper ·) := by cases kind <;> rfl
  simpa using low

@[simp] theorem lower_name (kind : Kind) : lower kind.name.toList = kind.name.toList :=
  Text.lower_eq_self (not_isUpper_name kind)

theorem isTable_keywords : keywords.IsTable where
  low := by
    rintro ⟨word, kind⟩ listed
    rw [(mem_keywords_iff word kind).mp listed]
    exact not_isUpper_name kind
  distinct := by decide

theorem ofName?_eq_some_iff (word : Text) (kind : Kind) :
    ofName? word = some kind ↔ lower word = kind.name.toList := by
  rw [ofName?, Keywords.find?_eq_some_iff isTable_keywords]
  constructor
  · rintro ⟨key, listed, same⟩
    rw [same, (mem_keywords_iff key kind).mp listed, lower_name]
  · intro named
    refine ⟨kind.name.toList, (mem_keywords_iff _ kind).mpr rfl, ?_⟩
    rw [named, lower_name]

/-- A kind is found under the words that are its name but for the case of ASCII letters. No two
kinds have the same name, and under a word that is the name of none, of whatever length, nothing is
found. -/
theorem found_by_name :
    (∀ (word : Text) (kind : Kind),
      ofName? word = some kind ↔ lower word = kind.name.toList) ∧
    Function.Injective name ∧
    ∀ word : Text, ofName? word = none ↔ ∀ kind : Kind, lower word ≠ kind.name.toList := by
  refine ⟨ofName?_eq_some_iff, ?_, ?_⟩
  · intro first second same
    have found (kind : Kind) : ofName? kind.name.toList = some kind :=
      (ofName?_eq_some_iff _ kind).mpr (lower_name kind)
    apply Option.some.inj
    rw [← found first, ← found second, same]
  · intro word
    rw [Option.eq_none_iff_forall_ne_some]
    apply forall_congr'
    intro kind
    exact not_congr (ofName?_eq_some_iff word kind)

example : ofName? ['B', 'a', 'd', '-', 'U', 'R', 'L'] = some badUrl := by decide

end Kind

end CssSyntax
