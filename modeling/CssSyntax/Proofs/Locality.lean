import CssSyntax.Proofs.Starts

/-!
Reading is local: what is read off the front of a text, and how far it goes, depends on what comes
behind it only through the next three code points, and the end of the text continues nothing.
-/

namespace CssSyntax

open CodePoint

namespace Text

/-- The next three code points of a text are those that come next in another one, or it ends
before it has as many. -/
def Near (next rest : Text) : Prop := next.take 3 <+: rest

theorem near_of_front {next rest : Text} (h : next <+: rest) : Near next rest :=
  (List.take_prefix 3 next).trans h

@[simp] theorem near_nil (rest : Text) : Near [] rest := near_of_front List.nil_prefix

theorem eq_nil_of_near_nil {next : Text} (h : Near next []) : next = [] := by
  have := List.prefix_nil.mp h
  simpa using this

theorem Near.cons {next rest : Text} (h : Near next rest) (c : Char) :
    Near (c :: next) (c :: rest) := by
  refine List.cons_prefix_cons.mpr ⟨rfl, ?_⟩
  exact (List.take_prefix_take_left (by decide)).trans h

theorem Near.append {next rest : Text} (h : Near next rest) (front : Text) :
    Near (front ++ next) (front ++ rest) := by
  induction front with
  | nil => exact h
  | cons c front ih => exact ih.cons c

theorem Near.getElem? {next rest : Text} (h : Near next rest) {i : Nat} (hi : i < 3) {c : Char}
    (hc : next[i]? = some c) : rest[i]? = some c := by
  obtain ⟨behind, rfl⟩ := h
  obtain ⟨within, _⟩ := List.getElem?_eq_some_iff.mp hc
  rw [List.getElem?_append_left (by rw [List.length_take]; omega), List.getElem?_take_of_lt hi, hc]

theorem Near.head {next rest : Text} (h : Near next rest) {c : Char} (first : c ∈ next.head?) :
    c ∈ rest.head? := by
  rw [List.head?_eq_getElem?] at first ⊢
  exact h.getElem? (by decide) first

theorem Near.second {next rest : Text} {c d : Char} (h : Near (c :: next) (d :: rest)) {e : Char}
    (second : e ∈ next.head?) : e ∈ rest.head? := by
  rw [List.head?_eq_getElem?] at second ⊢
  exact h.getElem? (i := 1) (by decide) second

theorem Near.getElem?_eq {next rest : Text} (h : Near next rest) {i : Nat} (hi : i < 3) :
    next[i]? = none ∨ next[i]? = rest[i]? := by
  cases hc : next[i]? with
  | none => exact .inl rfl
  | some c => exact .inr (h.getElem? hi hc).symm

theorem Near.stopsAt {next rest : Text} (h : Near next rest) {p : Char → Bool}
    (stops : StopsAt p rest) : StopsAt p next := fun c first => stops c (h.head first)

/-- Off the front of `text` a reader reads a certain result and leaves `rest`; and it does so with
any text in the place of `rest` that is near to it and meets a condition. -/
def LocalIf {α : Type} (condition : Text → Prop) (read result : Text → α) (text rest : Text) :
    Prop :=
  ∃ front, text = front ++ rest ∧
    ∀ next, Near next rest → condition next → read (front ++ next) = result next

abbrev Local {α : Type} (read result : Text → α) (text rest : Text) : Prop :=
  LocalIf (fun _ => True) read result text rest

variable {α β : Type} {condition : Text → Prop} {read result : Text → α}
  {read' : Text → β} {text rest : Text}

/-- All that is read is a fixed front. -/
theorem LocalIf.front (front : Text)
    (h : ∀ next, Near next rest → condition next → read (front ++ next) = result next) :
    LocalIf condition read result (front ++ rest) rest := ⟨front, rfl, h⟩

/-- What is read goes on behind a front, where something of it is still to come. -/
theorem LocalIf.behind_of_lt (h : LocalIf condition read result text rest)
    (shorter : rest.length < text.length) (front : Text) (give : α → β)
    (step : ∀ next, next ≠ [] → Near next text → read' (front ++ next) = give (read next)) :
    LocalIf condition read' (fun next => give (result next)) (front ++ text) rest := by
  obtain ⟨inner, rfl, hinner⟩ := h
  refine ⟨front ++ inner, (List.append_assoc ..).symm, fun next near meets => ?_⟩
  have more : inner ++ next ≠ [] := by
    cases inner with
    | nil => exact absurd shorter (Nat.lt_irrefl _)
    | cons c inner => simp
  rw [List.append_assoc, step _ more (near.append inner), hinner next near meets]

/-- What is read goes on behind a front. -/
theorem LocalIf.behind (h : LocalIf condition read result text rest) (front : Text) (give : α → β)
    (step : ∀ next, Near next text → read' (front ++ next) = give (read next)) :
    LocalIf condition read' (fun next => give (result next)) (front ++ text) rest := by
  obtain ⟨inner, rfl, hinner⟩ := h
  refine ⟨front ++ inner, (List.append_assoc ..).symm, fun next near meets => ?_⟩
  rw [List.append_assoc, step _ (near.append inner), hinner next near meets]

theorem LocalIf.weaken {condition' : Text → Prop} (h : LocalIf condition read result text rest)
    (enough : ∀ next, condition' next → condition next) :
    LocalIf condition' read result text rest := by
  obtain ⟨front, split, hfront⟩ := h
  exact ⟨front, split, fun next near meets => hfront next near (enough next meets)⟩

end Text

open Text

namespace Lookahead

/-- Each code point is the same, or missing in the first of the two. -/
structure Within (a b : Lookahead) : Prop where
  first : a.first = none ∨ a.first = b.first
  second : a.second = none ∨ a.second = b.second
  third : a.third = none ∨ a.third = b.third

theorem within_of_near {next rest : Text} (h : Near next rest) :
    Within (ofText next) (ofText rest) :=
  ⟨h.getElem?_eq (by decide), h.getElem?_eq (by decide), h.getElem?_eq (by decide)⟩

variable {a b : Lookahead}

theorem any_mono {o o' : Option Char} (h : o = none ∨ o = o') {p : Char → Bool} (any : o.any p) :
    o'.any p := by
  rcases h with rfl | rfl
  · cases any
  · exact any

theorem startsEscape_mono {first second first' second' : Option Char}
    (hfirst : first = none ∨ first = first') (hsecond : second = none ∨ second = second')
    (h : startsEscape first second) : startsEscape first' second' := by
  rcases hfirst with rfl | rfl
  · simp [startsEscape] at h
  · rcases hsecond with rfl | rfl
    · simp [startsEscape] at h
    · exact h

theorem Within.continuesName (h : Within a b) (name : a.continuesName) : b.continuesName := by
  simp only [Lookahead.continuesName, Bool.or_eq_true] at name ⊢
  exact name.imp (any_mono h.first) (startsEscape_mono h.first h.second)

theorem Within.startsIdentifier (h : Within a b) (start : a.startsIdentifier) :
    b.startsIdentifier := by
  obtain ⟨first, second, third⟩ := a
  obtain ⟨first', second', third'⟩ := b
  obtain ⟨absent | same, hsecond, hthird⟩ := h
  · dsimp only at absent
    simp [Lookahead.startsIdentifier, absent] at start
  · dsimp only at same hsecond hthird
    subst same
    unfold Lookahead.startsIdentifier at start ⊢
    dsimp only at start ⊢
    split at start
    · cases start
    · simp only [Bool.or_eq_true, beq_iff_eq] at start ⊢
      refine start.imp (Or.imp ?_ (any_mono hsecond)) (startsEscape_mono hsecond hthird)
      intro hyphen
      rw [← hsecond.resolve_left (by simp [hyphen]), hyphen]
    · exact startsEscape_mono (.inr rfl) hsecond start
    · exact start

theorem Within.startsNumber (h : Within a b) (start : a.startsNumber) : b.startsNumber := by
  obtain ⟨first, second, third⟩ := a
  obtain ⟨first', second', third'⟩ := b
  obtain ⟨absent | same, hsecond, hthird⟩ := h
  · dsimp only at absent
    simp [Lookahead.startsNumber, absent] at start
  · dsimp only at same hsecond hthird
    subst same
    have signed : second.any Char.isDigit ∨ (second = some '.' ∧ third.any Char.isDigit) →
        second'.any Char.isDigit ∨ (second' = some '.' ∧ third'.any Char.isDigit) := by
      refine Or.imp (any_mono hsecond) (And.imp (fun point => ?_) (any_mono hthird))
      rw [← hsecond.resolve_left (by simp [point]), point]
    unfold Lookahead.startsNumber at start ⊢
    dsimp only at start ⊢
    split at start
    · simpa using signed (by simpa using start)
    · simpa using signed (by simpa using start)
    · exact any_mono hsecond start
    · exact start

end Lookahead

namespace Text

variable {next rest : Text}

theorem Near.continuesName (h : Near next rest) (name : (Lookahead.ofText next).continuesName) :
    (Lookahead.ofText rest).continuesName := (Lookahead.within_of_near h).continuesName name

theorem Near.startsIdentifier (h : Near next rest)
    (start : (Lookahead.ofText next).startsIdentifier) :
    (Lookahead.ofText rest).startsIdentifier := (Lookahead.within_of_near h).startsIdentifier start

theorem Near.startsNumber (h : Near next rest) (start : (Lookahead.ofText next).startsNumber) :
    (Lookahead.ofText rest).startsNumber := (Lookahead.within_of_near h).startsNumber start

end Text

namespace Escape

theorem local_digits (room value : Nat) (text : Text) :
    Local (digits room value) (fun next => ((digits room value text).1, next)) text
      (digits room value text).2 := by
  fun_induction digits room value text with
  | case1 value text => exact .front [] fun next _ _ => by simp [digits]
  | case2 value room =>
      refine .front [] fun next near _ => ?_
      rw [eq_nil_of_near_nil near]
      rfl
  | case3 room value c rest d h ih =>
      refine ih.behind [c] id fun next _ => ?_
      simp [digits, h]
  | case4 room value c rest h =>
      by_cases blank : isWhitespace c
      · rw [if_pos blank]
        refine .front [c] fun next _ _ => ?_
        simp [digits, h, blank]
      · rw [if_neg blank]
        refine .front [] fun next near _ => ?_
        cases next with
        | nil => rfl
        | cons d after =>
            cases near.head rfl
            simp [digits, h, blank]

theorem local_read {text rest : Text} {e : Char} (h : read text = some (e, rest)) :
    Local read (fun next => some (e, next)) text rest := by
  cases text with
  | nil => cases h
  | cons c tail =>
      by_cases feed : c = '\n'
      · simp [read, feed] at h
      · cases hd : hexValue? c with
        | none =>
            simp only [read, feed, hd, if_false, Option.some.injEq, Prod.mk.injEq] at h
            obtain ⟨rfl, rfl⟩ := h
            refine .front [c] fun next _ _ => ?_
            simp [read, feed, hd]
        | some d =>
            simp only [read, feed, hd, if_false, Option.some.injEq, Prod.mk.injEq] at h
            obtain ⟨rfl, rfl⟩ := h
            refine (local_digits 5 d tail).behind [c]
              (fun number => some (ofNumber number.1, number.2)) fun next _ => ?_
            simp [read, feed, hd]

/-- A text that begins like another one, or is at its end, has no escape where that has none. -/
theorem read_eq_none_of_head {next rest : Text} (same : ∀ c ∈ next.head?, c ∈ rest.head?)
    (h : read rest = none) : read next = none := by
  rw [read_eq_none_iff] at h ⊢
  cases next with
  | nil => exact .inl rfl
  | cons c after =>
      have first : rest.head? = some c := same c rfl
      rcases h with rfl | feed
      · cases first
      · exact .inr (first.symm.trans feed)

end Escape

namespace Name

theorem local_of_not_continuesName {text : Text} (h : ¬(Lookahead.ofText text).continuesName) :
    Local read (fun next => ([], next)) text text :=
  .front [] fun _ near _ => read_of_not_continuesName (mt near.continuesName h)

theorem local_read (text : Text) :
    Local read (fun next => ((read text).1, next)) text (read text).2 := by
  fun_induction read text with
  | case1 => exact local_of_not_continuesName (by decide)
  | case2 c rest name inner ih =>
      exact ih.behind [c] (fun inner => (c :: inner.1, inner.2))
        fun next _ => read_of_name name next
  | case3 rest e after hread inner notName ih =>
      obtain ⟨escape, rfl, hescape⟩ := Escape.local_read hread
      exact ih.behind ('\\' :: escape) (fun inner => (e :: inner.1, inner.2)) fun next near =>
        read_of_escape (hescape next near trivial)
  | case4 rest hread notName =>
      refine local_of_not_continuesName ?_
      simp [continuesName_cons_iff, notName, hread]
  | case5 c rest notName notEscape =>
      refine local_of_not_continuesName ?_
      simp [continuesName_cons_iff, notName, notEscape]

variable {front rest next : Text}

/-- A name that goes on still does when something else stands behind it. -/
theorem continuesName_front (name : (Lookahead.ofText (front ++ rest)).continuesName)
    (hrest : (read (front ++ rest)).2 = rest) (hnext : (read (front ++ next)).2 = next) :
    front ≠ [] ∧ (Lookahead.ofText (front ++ next)).continuesName := by
  rw [continuesName_iff, hrest, List.length_append] at name
  rw [continuesName_iff, hnext, List.length_append]
  cases front with
  | nil => exact absurd name (by simp)
  | cons c front => exact ⟨by simp, by rw [List.length_cons]; omega⟩

theorem Begins.of_front (begins : Begins (front ++ rest)) (hrest : (read (front ++ rest)).2 = rest)
    (hnext : (read (front ++ next)).2 = next) : Begins (front ++ next) := by
  obtain ⟨nonempty, name⟩ := continuesName_front begins.1 hrest hnext
  obtain ⟨c, tail, rfl⟩ := List.exists_cons_of_ne_nil nonempty
  exact ⟨name, begins.2⟩

theorem startsIdentifier_front (start : (Lookahead.ofText (front ++ rest)).startsIdentifier)
    (hrest : (read (front ++ rest)).2 = rest) (hnext : (read (front ++ next)).2 = next) :
    (Lookahead.ofText (front ++ next)).startsIdentifier := by
  rw [startsIdentifier_iff] at start ⊢
  obtain ⟨begins, hyphen⟩ := start
  refine ⟨begins.of_front hrest hnext, ?_⟩
  obtain ⟨c, tail, rfl⟩ := List.exists_cons_of_ne_nil (continuesName_front begins.1 hrest hnext).1
  intro first
  cases first
  have behind : Begins (tail ++ rest) := hyphen rfl
  rw [List.cons_append, read_of_name (by decide)] at hrest hnext
  exact behind.of_front hrest hnext

/-- Whether a name is an identifier does not depend on what stands behind it. -/
theorem startsIdentifier_eq (near : Near next rest) (hrest : (read (front ++ rest)).2 = rest)
    (hnext : (read (front ++ next)).2 = next) :
    (Lookahead.ofText (front ++ next)).startsIdentifier =
      (Lookahead.ofText (front ++ rest)).startsIdentifier := by
  rw [Bool.eq_iff_iff]
  exact ⟨(near.append front).startsIdentifier, fun start =>
    startsIdentifier_front start hrest hnext⟩

end Name

theorem Comment.local_read (text : Text) :
    Local read (fun next => { read text with rest := next }) text (read text).rest := by
  fun_induction read text with
  | case1 =>
      refine .front [] fun next near _ => ?_
      rw [eq_nil_of_near_nil near]
      rfl
  | case2 rest => exact .front ['*', '/'] fun next _ _ => rfl
  | case3 c rest notEnd inner ih =>
      refine ih.behind [c] (fun inner => { inner with content := c :: inner.content })
        fun next near => read_cons ?_
      rintro ⟨rfl, slash⟩
      obtain ⟨after, hafter⟩ := List.head?_eq_some_iff.mp (near.head slash)
      exact notEnd after rfl hafter

namespace Quoted

theorem local_read (quote : Char) (text : Text) :
    LocalIf (fun next => (read quote text).ending = .lineFeed → next.head? = some '\n')
      (read quote) (fun next => { read quote text with rest := next }) text
      (read quote text).rest := by
  fun_induction read quote text with
  | case1 =>
      refine .front [] fun next near _ => ?_
      rw [eq_nil_of_near_nil near, List.nil_append, read]
  | case2 rest => exact .front [quote] fun next _ _ => read_of_quote quote next
  | case3 rest notQuote =>
      refine .front [] fun next near feed => ?_
      obtain ⟨after, rfl⟩ := List.head?_eq_some_iff.mp (feed rfl)
      exact read_of_lineFeed notQuote after
  | case4 rest e after hread inner notQuote notFeed ih =>
      obtain ⟨escape, rfl, hescape⟩ := Escape.local_read hread
      exact ih.behind ('\\' :: escape) (fun inner => { inner with content := e :: inner.content })
        fun next near => read_of_escape notQuote (hescape next near trivial)
  | case5 rest hread notQuote notFeed ih =>
      cases rest with
      | nil =>
          refine ih.behind ['\\'] id fun next near => ?_
          rw [eq_nil_of_near_nil near]
          exact read_of_missing_escape notQuote hread
      | cons feed after =>
          refine ih.behind ['\\', feed] id fun next near => ?_
          have missing := Escape.read_eq_none_of_head (fun _ => (near.cons feed).head) hread
          exact read_of_missing_escape notQuote missing
  | case6 c rest notQuote notFeed notEscape inner ih =>
      exact ih.behind [c] (fun inner => { inner with content := c :: inner.content })
        fun next _ => read_of_plain notQuote notFeed notEscape next

end Quoted

namespace Url

theorem local_readRemnants (text : Text) :
    Local readRemnants (fun next => ((readRemnants text).1, next)) text (readRemnants text).2 := by
  fun_induction readRemnants text with
  | case1 =>
      refine .front [] fun next near _ => ?_
      rw [eq_nil_of_near_nil near, List.nil_append, readRemnants]
  | case2 rest => exact .front [')'] fun next _ _ => readRemnants_of_close next
  | case3 rest e after hread inner notClosed ih =>
      obtain ⟨escape, rfl, hescape⟩ := Escape.local_read hread
      exact ih.behind ('\\' :: escape) (fun inner => (e :: inner.1, inner.2))
        fun next near => readRemnants_of_escape (hescape next near trivial)
  | case4 hread notClosed =>
      refine .front ['\\'] fun next near _ => ?_
      rw [eq_nil_of_near_nil near]
      exact readRemnants_of_end
  | case5 rest hread more notClosed inner ih =>
      obtain ⟨feed, after, rfl⟩ := List.exists_cons_of_ne_nil more
      exact ih.behind_of_lt (length_readRemnants_lt feed after) ['\\']
        (fun inner => ('\\' :: inner.1, inner.2)) fun next more near =>
          readRemnants_of_missing_escape
            (Escape.read_eq_none_of_head (fun _ => near.head) hread) more
  | case6 c rest notClosed notEscape inner ih =>
      exact ih.behind [c] (fun inner => (c :: inner.1, inner.2))
        fun next _ => readRemnants_of_plain notClosed notEscape next

theorem local_spoiled (content text : Text) :
    Local (spoiled content) (fun next => { spoiled content text with rest := next }) text
      (spoiled content text).rest := by
  let give (remnants : Text × Text) : Reading := ⟨content ++ remnants.1, false, remnants.2⟩
  exact (local_readRemnants text).behind [] give fun _ _ => rfl

theorem local_read (text : Text) :
    Local read (fun next => { read text with rest := next }) text (read text).rest := by
  fun_induction read text with
  | case1 =>
      refine .front [] fun next near _ => ?_
      rw [eq_nil_of_near_nil near, List.nil_append, read]
  | case2 rest => exact .front [')'] fun next _ _ => read_of_close next
  | case3 c rest notClosed blank after closed =>
      have split := List.takeWhile_append_dropWhile (p := isWhitespace) (l := rest)
      rw [closed] at split
      have drops (next : Text) :
          ((rest.takeWhile isWhitespace ++ [')']) ++ next).dropWhile isWhitespace =
            ')' :: next := by
        rw [List.append_assoc]
        exact dropWhile_run (fun _ => of_mem_takeWhile) (stopsAt_cons.mpr rfl)
      refine ⟨c :: (rest.takeWhile isWhitespace ++ [')']), ?_, fun next _ _ =>
        read_of_blank_closed notClosed blank (drops next)⟩
      rw [List.cons_append, List.append_assoc]
      exact congrArg _ split.symm
  | case4 c rest notClosed blank more =>
      have run : ∀ d ∈ rest.takeWhile isWhitespace, isWhitespace d := fun _ => of_mem_takeWhile
      have stops := stopsAt_dropWhile isWhitespace rest
      have split := List.takeWhile_append_dropWhile (p := isWhitespace) (l := rest)
      have step (next : Text) (near : Near next (rest.dropWhile isWhitespace)) :
          read ((c :: rest.takeWhile isWhitespace) ++ next) =
            id (spoiled (c :: rest.takeWhile isWhitespace) next) := by
        have drops := dropWhile_run run (near.stopsAt stops)
        have takes := takeWhile_run run (near.stopsAt stops)
        rw [List.cons_append, read_of_blank_spoiled notClosed blank, drops, takes, id]
        rw [drops]
        intro closed
        obtain ⟨after, hafter⟩ := List.head?_eq_some_iff.mp (near.head closed)
        exact more after hafter
      have inner := (local_spoiled (c :: rest.takeWhile isWhitespace)
        (rest.dropWhile isWhitespace)).behind (c :: rest.takeWhile isWhitespace) id step
      rw [List.cons_append, split] at inner
      exact inner
  | case5 c rest notClosed notBlank spoils =>
      exact (local_spoiled [c] rest).behind [c] id
        fun next _ => read_of_spoils notClosed notBlank spoils next
  | case6 rest e after hread inner notClosed notBlank clean ih =>
      obtain ⟨escape, rfl, hescape⟩ := Escape.local_read hread
      exact ih.behind ('\\' :: escape) (fun inner => { inner with content := e :: inner.content })
        fun next near => read_of_escape (hescape next near trivial)
  | case7 rest hread notClosed notBlank clean =>
      refine (local_spoiled [] _).behind_of_lt (length_readRemnants_lt '\\' rest) [] id
        fun next more near => ?_
      obtain ⟨c, after, rfl⟩ := List.exists_cons_of_ne_nil more
      cases near.head rfl
      exact read_of_missing_escape (Escape.read_eq_none_of_head (fun _ => near.second) hread)
  | case8 c rest notClosed notBlank clean notEscape inner ih =>
      exact ih.behind [c] (fun inner => { inner with content := c :: inner.content })
        fun next _ => read_of_plain notClosed notBlank clean notEscape next

end Url

end CssSyntax
