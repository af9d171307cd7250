import CssSyntax.Proofs.Accounts

/-!
After a failure a stream goes on as a stream over the rest of the source would, with every place
counted from further back: all that the source gave before the failure stands before it.
-/

namespace CssSyntax

/-- A place in a text, counted from the start of a text that comes before it. -/
def Position.behind (before : Text) (p : Position) : Position :=
  let base := Position.start.after before
  ⟨base.offset + p.offset, base.line + (p.line - 1),
    if p.line = 1 then base.column + (p.column - 1) else p.column⟩

/-- Lines and columns count from one. -/
def Position.Counted (p : Position) : Prop := 1 ≤ p.line ∧ 1 ≤ p.column

namespace Position

variable {p : Position}

theorem Counted.step (h : p.Counted) (c : Char) : (p.step c).Counted := by
  unfold Position.step
  split
  · exact ⟨Nat.le_add_left 1 _, Nat.le_refl 1⟩
  · exact ⟨h.1, Nat.le_add_left 1 _⟩

theorem Counted.after (h : p.Counted) (text : Text) : (p.after text).Counted := by
  induction text generalizing p with
  | nil => exact h
  | cons c rest ih => exact ih (h.step c)

theorem behind_step (before : Text) (h : p.Counted) (c : Char) :
    (p.step c).behind before = (p.behind before).step c := by
  obtain ⟨offset, line, column⟩ := p
  obtain ⟨hline, hcolumn⟩ : 1 ≤ line ∧ 1 ≤ column := h
  by_cases feed : c = '\n'
  · have later : line + 1 ≠ 1 := by omega
    simp only [step, behind, feed, if_true, later, if_false, Position.mk.injEq, and_true]
    omega
  · by_cases first : line = 1
    · simp only [step, behind, feed, first, if_true, if_false, Position.mk.injEq, true_and]
      omega
    · simp only [step, behind, feed, first, if_false, Position.mk.injEq, and_true]
      omega

theorem behind_after (before : Text) (h : p.Counted) (text : Text) :
    (p.after text).behind before = (p.behind before).after text := by
  induction text generalizing p with
  | nil => rfl
  | cons c rest ih =>
      rw [after_cons, after_cons, ih (h.step c), behind_step before h]

theorem counted_start : start.Counted := ⟨Nat.le_refl 1, Nat.le_refl 1⟩

@[simp] theorem behind_start (before : Text) : start.behind before = start.after before :=
  rfl

end Position

def ParseError.behind (before : Text) (error : ParseError) : ParseError :=
  { error with start := error.start.behind before }

def Token.behind (before : Text) (token : Token) : Token :=
  { token with start := token.start.behind before }

def Event.behind (before : Text) : Event → Event
  | warning error => warning (error.behind before)
  | token kind line column =>
      let place := Position.behind before ⟨0, line, column⟩
      token kind place.line place.column

/-- A reporter of the same sort that keeps no errors yet. -/
def Reporter.emptied : Reporter → Reporter
  | collecting _ => collecting []
  | reporter => reporter

/-- A reporter with the errors that another one of its sort keeps, counted from further back. -/
def Reporter.extendedBy (kept : Reporter) (before : Text) (fresh : Reporter) : Reporter :=
  match kept, fresh with
  | collecting kept, collecting errors =>
      collecting (kept ++ errors.map (ParseError.behind before))
  | kept, _ => kept

@[simp] theorem Reporter.emptied_emptied (kept : Reporter) :
    kept.emptied.emptied = kept.emptied := by
  cases kept <;> rfl

@[simp] theorem Reporter.extendedBy_emptied (kept : Reporter) (before : Text) :
    kept.extendedBy before kept.emptied = kept := by
  cases kept with
  | collecting errors => exact congrArg _ (List.append_nil errors)
  | _ => rfl

theorem Reporter.told_extendedBy {kept fresh : Reporter} (same : fresh.emptied = kept.emptied)
    (before : Text) (error? : Option ParseError) :
    let told := (kept.extendedBy before fresh).told (error?.map (ParseError.behind before))
    told.1 = kept.extendedBy before (fresh.told error?).1 ∧
      told.2 = (fresh.told error?).2.map (Event.behind before) ∧
      (fresh.told error?).1.emptied = kept.emptied := by
  cases error? with
  | none => exact ⟨rfl, rfl, same⟩
  | some error =>
      cases kept <;> cases fresh <;> cases same
      · exact ⟨rfl, rfl, rfl⟩
      · simp [told, report, extendedBy, emptied]
      · exact ⟨rfl, rfl, rfl⟩

namespace Reader

/-- A lexeme leaves the start of its token where it is. -/
theorem position_of_lexeme (r : Reader) :
    match lexeme r with
    | .ok _ after => after.position = r.position
    | .error _ after => after.position = r.position := by
  have here := (reads_lexeme r).anywhere r.position
  change lexeme r = _ at here
  cases h : lexeme r with
  | ok taken after =>
      rw [h] at here
      injection here with _ same
      rw [same]
      rfl
  | error stop after =>
      rw [h] at here
      injection here with _ same
      rw [same]
      rfl

theorem begin_placed {r : Reader} (counted : r.position.Counted) (before : Text) :
    (r.placed (r.position.behind before)).begin =
      r.begin.placed (r.begin.position.behind before) := by
  simp only [Reader.begin, placed, Position.behind_after before counted]

end Reader

namespace TokenStream

/-- A stream does what another one does, with its places counted from further back. -/
structure Trails (before : Text) (kept : Reporter) (stream fresh : TokenStream) : Prop where
  counted : fresh.reader.begin.position.Counted
  reader : stream.reader.begin =
    fresh.reader.begin.placed (fresh.reader.begin.position.behind before)
  reporter : stream.reporter = kept.extendedBy before fresh.reporter
  sort : fresh.reporter.emptied = kept.emptied

/-- One call of each stream. -/
theorem Trails.next {before : Text} {kept : Reporter} {stream fresh : TokenStream}
    (h : Trails before kept stream fresh) :
    stream.next.result = fresh.next.result.map (Token.behind before) ∧
      stream.next.events = fresh.next.events.map (Event.behind before) ∧
      stream.next.stream.intoSource = fresh.next.stream.intoSource ∧
      Trails before kept stream.next.stream fresh.next.stream := by
  have anywhere := (Reader.reads_lexeme fresh.reader.begin).anywhere
    (fresh.reader.begin.position.behind before)
  rw [← h.reader] at anywhere
  have position := Reader.position_of_lexeme fresh.reader.begin
  cases hlexeme : Reader.lexeme fresh.reader.begin with
  | ok taken after =>
      rw [hlexeme] at anywhere position
      obtain ⟨lexeme, unterminated⟩ := taken
      obtain ⟨told, events, sort⟩ := Reporter.told_extendedBy h.sort before
        (unterminated.map fun construct => ⟨construct, after.position⟩)
      rw [← h.reporter, Option.map_map] at told events
      rw [next_of_ok hlexeme, next_of_ok anywhere]
      have counted : after.position.Counted := position ▸ h.counted
      rw [← position]
      refine ⟨rfl, ?_, rfl, counted.after _, Reader.begin_placed counted before, told, sort⟩
      simp only [gives, List.map_append]
      exact congrArg (· ++ _) events
  | error stop after =>
      rw [hlexeme] at anywhere position
      rw [next_of_error hlexeme, next_of_error anywhere]
      have counted : after.position.Counted := position ▸ h.counted
      refine ⟨rfl, rfl, rfl, counted.after _, ?_, h.reporter, h.sort⟩
      rw [← position]
      exact Reader.begin_placed counted before

/-- Any number of calls of each stream. -/
theorem Trails.call {before : Text} {kept : Reporter} {stream fresh : TokenStream}
    (h : Trails before kept stream fresh) (count : Nat) :
    (stream.call count).result = (fresh.call count).result.map (Token.behind before) ∧
      (stream.call count).events = (fresh.call count).events.map (Event.behind before) ∧
      (stream.call count).stream.intoSource = (fresh.call count).stream.intoSource ∧
      Trails before kept (stream.call count).stream (fresh.call count).stream := by
  induction count generalizing stream fresh with
  | zero => exact h.next
  | succ count ih =>
      rw [call_succ, call_succ]
      exact ih h.next.2.2.2

/-- After a failing call, a stream gives what a fresh stream over the rest of the source gives, and
reports the same errors, with all that the source gave before the failure counted before it. -/
theorem recovers (source : Source) (reporter : Reporter) (count : Nat) (stop : Stop)
    (h : ((ofSource source reporter).call count).result = .error stop) :
    let failed := ((ofSource source reporter).call count).stream
    let fresh := ofSource failed.intoSource failed.reporter.emptied
    ∃ returned, Normalizer.Gave source returned failed.reader.input ∧
      ∀ later,
        (failed.call later).result = (fresh.call later).result.map (Token.behind returned) ∧
        (failed.call later).events = (fresh.call later).events.map (Event.behind returned) ∧
        (failed.call later).stream.intoSource = (fresh.call later).stream.intoSource ∧
        (failed.call later).stream.reporter =
          failed.reporter.extendedBy returned (fresh.call later).stream.reporter := by
  intro failed fresh
  obtain ⟨returned, gave, hbegin⟩ := begin_of_error h
  have trails : Trails returned failed.reporter failed fresh := by
    refine ⟨Position.counted_start, ?_, (failed.reporter.extendedBy_emptied returned).symm,
      failed.reporter.emptied_emptied⟩
    rw [hbegin]
    exact congrArg _ (Position.behind_start returned).symm
  refine ⟨returned, gave, fun later => ?_⟩
  obtain ⟨result, events, left, behind⟩ := trails.call later
  exact ⟨result, events, left, behind.reporter⟩

/-- A failure right behind a solidus, which has to know what comes next. -/
theorem recovers_behind_solidus :
    let source : Source := [.unit 0x2F, .failure ⟨"interrupted"⟩, .unit 0x2A, .unit 0x0A]
    let failed := ((ofSource source (.collecting [])).call 0).stream
    let fresh := ofSource failed.intoSource failed.reporter.emptied
    ((ofSource source (.collecting [])).call 0).result =
        .error (.failure ⟨"interrupted"⟩) ∧
      failed.intoSource = [.unit 0x2A, .unit 0x0A] ∧
      ∃ returned, Normalizer.Gave source returned failed.reader.input ∧
        ∀ later,
          (failed.call later).result = (fresh.call later).result.map (Token.behind returned) ∧
          (failed.call later).events = (fresh.call later).events.map (Event.behind returned) ∧
          (failed.call later).stream.intoSource = (fresh.call later).stream.intoSource ∧
          (failed.call later).stream.reporter =
            failed.reporter.extendedBy returned (fresh.call later).stream.reporter :=
  ⟨rfl, rfl, recovers _ _ 0 _ rfl⟩

end TokenStream

end CssSyntax
