import JavaPrimer.Command.Repl
import Mathlib.Data.List.Basic
import Mathlib.Data.List.DropRight

/-!
# Whole conversations

The lines of a conversation fall into entries, one after another: each is the shortest run of lines
that leaves no brace and no parenthesis open. An entry is answered as a whole, in the mode that the
entries before it have chosen. What is left when the input ends has something open at every line,
and is not answered.

The lines of an entry are read with the ones before them pending, so the run of the conversation is
followed from pending lines to pending lines, and an entry is the step from none to none.

* `joined`, `balance`, `Waiting`, `IsEntry` — lines with something open, and entries;
* `Outcome.shown` — the result of a check as it is printed;
* `Request`, `asks`, `Request.reply` — what an entry asks for, and what it is answered;
* `modeAfter`, `kept` — the mode and the history that entries leave;
* `Session`, with `session_nil` and `session_cons` — the lines of a conversation, cut into entries;
* `exists_session`, `Session.unique` — there is one way to cut them;
* `Repl.answer_eq`, `run_waiting`, `run_entry` — one answer, lines that wait, and one entry;
* `answered`, `run_session` — the whole conversation.
-/

namespace JavaPrimer

/-! ### Entries -/

/-- Lines as one text. -/
def joined (ls : List Text) : Text := List.intercalate (Text.ofString "\n") ls

/-- The braces and parentheses among the tokens of a text that open, less the ones that close. -/
def balance (text : Text) : Int :=
  ((lex text).tokens.countP fun t => t.kind = .lbrace ∨ t.kind = .lparen)
    - ((lex text).tokens.countP fun t => t.kind = .rbrace ∨ t.kind = .rparen)

/-- Every front of some lines leaves a brace or a parenthesis open. -/
def Waiting (ls : List Text) : Prop := ∀ us, us <+: ls → us ≠ [] → 0 < balance (joined us)

/-- The shortest run of lines, one at least, that leaves nothing open. -/
structure IsEntry (ls : List Text) : Prop where
  ne_nil : ls ≠ []
  closed : balance (joined ls) ≤ 0
  shortest : ∀ us, us <+: ls → us ≠ [] → balance (joined us) ≤ 0 → us = ls

/-- Counting up and down through the tokens is the difference of two counts. -/
theorem unclosedDepth_eq (text : Text) : unclosedDepth text = balance text := by
  rw [unclosedDepth, balance, ← Int.zero_add (_ - _)]
  generalize (lex text).tokens = tokens
  generalize (0 : Int) = depth
  induction tokens generalizing depth with
  | nil => simp
  | cons t tokens ih =>
    rw [List.foldl_cons, ih]
    cases hkind : t.kind <;> simp [hkind] <;> omega

section Entries

variable {p q ls us vs : List Text} {line : Text}

theorem Waiting.nil : Waiting [] := fun _ hus hne => absurd (List.prefix_nil.1 hus) hne

theorem Waiting.snoc (h : Waiting p) (hline : 0 < balance (joined (p ++ [line]))) :
    Waiting (p ++ [line]) := by
  intro us hus hne
  rcases List.prefix_concat_iff.1 hus with rfl | hus
  · exact hline
  · exact h us hus hne

/-- The line that closes what was open ends an entry. -/
theorem Waiting.isEntry (h : Waiting p) (hline : balance (joined (p ++ [line])) ≤ 0) :
    IsEntry (p ++ [line]) where
  ne_nil := List.append_ne_nil_of_right_ne_nil _ (List.cons_ne_nil _ _)
  closed := hline
  shortest us hus hne hclosed := by
    rcases List.prefix_concat_iff.1 hus with heq | hus
    · exact heq
    · exact absurd hclosed (Int.not_le.2 (h us hus hne))

/-- An entry is lines that wait and the one that closes them. -/
theorem IsEntry.exists_snoc (h : IsEntry ls) : ∃ p line, ls = p ++ [line] ∧ Waiting p := by
  obtain ⟨p, line, rfl⟩ := (List.eq_nil_or_concat' ls).resolve_left h.ne_nil
  refine ⟨p, line, rfl, fun us hus hne => Int.not_le.1 fun hclosed => ?_⟩
  have heq := h.shortest us (hus.trans (List.prefix_append p [line])) hne hclosed
  have hlen := hus.length_le
  rw [heq, List.length_append, List.length_singleton] at hlen
  omega

/-- Of the lines ahead at most one front is an entry. -/
theorem IsEntry.unique (h : IsEntry us) (h' : IsEntry vs) (hus : us <+: ls) (hvs : vs <+: ls) :
    us = vs := by
  rcases List.prefix_or_prefix_of_prefix hus hvs with hfront | hfront
  · exact h'.shortest us hfront h.ne_nil h.closed
  · exact (h.shortest vs hfront h'.ne_nil h'.closed).symm

theorem IsEntry.not_waiting (h : IsEntry us) (hus : us <+: ls) : ¬ Waiting ls :=
  fun hwait => absurd h.closed (Int.not_le.2 (hwait us hus h.ne_nil))

end Entries

/-! ### Results of checks -/

/-- A finding as it is printed: its category, its message and its place, with its hint below when
it has one. -/
def Diagnostic.shown (d : Diagnostic) : Text :=
  let hint : Text := if d.hint = [] then [] else "\n  hint: " ++ d.hint
  "error[" ++ d.category.name ++ "]: " ++ d.message ++ "\n  --> <repl>:"
    ++ Text.decimal d.span.start.line ++ ":" ++ Text.decimal d.span.start.column ++ hint

/-- The result of a check as it is printed: that all is well, or what was found, one finding after
another with an empty line between. -/
def Outcome.shown (o : Outcome) : Text :=
  if o.errors = [] then "ok\n"
  else List.intercalate (Text.ofString "\n\n") (o.errors.map Diagnostic.shown) ++ ("\n" : Text)

theorem Diagnostic.pretty_eq (d : Diagnostic) : d.pretty "<repl>" = d.shown := by
  unfold Diagnostic.pretty Diagnostic.shown
  simp [Text.ofString]

theorem Repl.outcomeText_eq (mode : Mode) (text : Text) : Repl.outcomeText mode text =
    (({ extraBuiltins := [], filename := "<repl>" } : Settings).check mode text).shown := by
  have hpretty : Diagnostic.pretty "<repl>" = Diagnostic.shown := funext Diagnostic.pretty_eq
  simp only [Repl.outcomeText, replSettings, Outcome.success, Outcome.shown, List.isEmpty_iff,
    Diagnostic.report, if_true, hpretty, Text.asLine]

/-! ### Requests -/

/-- What an entry asks for. -/
inductive Request where
  | nothing
  | quit
  | showMode
  | setMode (mode : Mode)
  | badMode (name : Text)
  | unknown
  | check
deriving DecidableEq

namespace Request

/-- What the words of a command ask for. -/
def ofWords : List Text → Request
  | [] => nothing
  | word :: rest =>
    if word = ":quit" ∨ word = ":q" then quit
    else if word = ":mode" then
      match rest with
      | [] => showMode
      | name :: _ =>
        if name = "full" then setMode .full
        else if name = "statements" then setMode .statements
        else badMode name
    else unknown

/-- The mode that is asked for. -/
def mode? : Request → Option Mode
  | setMode m => some m
  | _ => none

/-- What is printed, and what is complained, when a text asks for something in a mode. -/
def reply (mode : Mode) (text : Text) : Request → Text × Text
  | nothing | quit | setMode _ => ([], [])
  | showMode =>
    match mode with
    | .full => ("mode is full\n", [])
    | .statements => ("mode is statements\n", [])
  | badMode name =>
    ([], "unknown mode " ++ name.quoted ++ " (want \"full\" or \"statements\")\n")
  | unknown => ("unknown command. Type :mode or :quit.\n", [])
  | check =>
    ((({ extraBuiltins := [], filename := "<repl>" } : Settings).check mode text).shown, [])

end Request

/-- What an entry asks for: nothing when it is blank, what its words say when it starts with a
colon, and to be checked otherwise. -/
def asks (text : Text) : Request :=
  if text.trim.isEmpty then .nothing
  else if text.trim.head? = some (Glyph.scalar ':') then .ofWords text.trim.fields
  else .check

/-- The mode after some entries: the one last asked for. -/
def modeAfter (start : Mode) (texts : List Text) : Mode :=
  ((texts.filterMap fun t => (asks t).mode?).getLast?).getD start

/-- The history with an entry behind it, on one line: a blank entry and one that repeats the last
line are left out, and of a longer history the last thousand lines stay. -/
def kept (history : History) (text : Text) : History :=
  let line : Text := text.map fun g => if g = .scalar '\n' then .scalar ' ' else g
  if text.trim.isEmpty ∨ history.getLast? = some line then history
  else (history ++ [line]).rtake 1000

theorem modeAfter_nil (start : Mode) : modeAfter start [] = start := rfl

theorem modeAfter_singleton (start : Mode) (text : Text) :
    modeAfter start [text] = (asks text).mode?.getD start := by
  unfold modeAfter
  cases h : (asks text).mode? <;> simp [h]

theorem modeAfter_cons (start : Mode) (text : Text) (texts : List Text) :
    modeAfter start (text :: texts) = modeAfter (modeAfter start [text]) texts := by
  rw [modeAfter_singleton]
  unfold modeAfter
  cases h : (asks text).mode? with
  | none => simp [h]
  | some m => simp [h, List.getLast?_cons]

/-- The complaint about a name that no mode has. -/
theorem Request.reply_badMode (mode : Mode) (text name : Text) :
    (badMode name).reply mode text = ([], (Mode.unknownMessage name).asLine) := by
  have hmodes : ∀ t : Text, t ++ (" (want " : Text) ++ Mode.full.name.quoted ++ (" or " : Text)
      ++ Mode.statements.name.quoted ++ (")" : Text) ++ ("\n" : Text)
      = t ++ (" (want \"full\" or \"statements\")\n" : Text) := by
    intro t
    simp only [List.append_assoc]
    rfl
  rw [Mode.unknownMessage, Text.asLine, hmodes]
  rfl

/-- A command is answered by what its words ask for. -/
theorem Repl.command_eq (r : Repl) (text : Text) (words : List Text) :
    r.command words =
      { state := { r with mode := (Request.ofWords words).mode?.getD r.mode }
        stdout := ((Request.ofWords words).reply r.mode text).1
        stderr := ((Request.ofWords words).reply r.mode text).2
        finished := decide (Request.ofWords words = .quit) } := by
  cases words with
  | nil => rfl
  | cons word rest =>
    dsimp only [Repl.command, Request.ofWords]
    by_cases hquit : word = ":quit" ∨ word = ":q"
    · simp only [if_pos hquit]
      rfl
    simp only [if_neg hquit]
    by_cases hmode : word = ":mode"
    · simp only [if_pos hmode]
      cases rest with
      | nil =>
        obtain ⟨mode, pending, history⟩ := r
        cases mode <;> rfl
      | cons name _ =>
        by_cases hfull : name = "full"
        · have hname : Mode.ofName? name = some .full := if_pos hfull
          simp only [hname, if_pos hfull]
          rfl
        by_cases hstatements : name = "statements"
        · have hname : Mode.ofName? name = some .statements :=
            (if_neg hfull).trans (if_pos hstatements)
          simp only [hname, if_neg hfull, if_pos hstatements]
          rfl
        · have hname : Mode.ofName? name = none := (if_neg hfull).trans (if_neg hstatements)
          simp only [hname, if_neg hfull, if_neg hstatements, Request.reply_badMode]
          rfl
    · simp only [if_neg hmode]
      rfl

/-- What is remembered of an entry that is not blank. -/
theorem History.remember_eq (history : History) {text : Text} (h : text.trim.isEmpty = false) :
    history.remember (text.map Repl.blankLineFeed) = kept history text := by
  simp only [kept, h, Bool.false_eq_true, false_or]
  rfl

/-- An entry is answered by what it asks for in the mode. -/
theorem Repl.answer_eq (mode : Mode) (history : History) (text : Text) :
    Repl.answer { mode := mode, history := history } text =
      { state := { mode := modeAfter mode [text], history := kept history text }
        stdout := ((asks text).reply mode text).1
        stderr := ((asks text).reply mode text).2
        finished := decide (asks text = .quit) } := by
  rw [modeAfter_singleton]
  dsimp only [Repl.answer, asks]
  by_cases hblank : text.trim.isEmpty = true
  · simp only [kept, hblank, true_or, if_true]
    rfl
  simp only [if_neg hblank, History.remember_eq history (Bool.not_eq_true _ ▸ hblank)]
  by_cases hcolon : text.trim.head? = some (Glyph.scalar ':')
  · simp only [if_pos hcolon]
    exact Repl.command_eq _ text _
  · simp only [if_neg hcolon, Repl.outcomeText_eq]
    rfl

/-! ### Sessions -/

/-- The lines of a conversation cut into entries, of which at most the last ends the conversation,
and what is not answered: the lines behind that entry, or lines that still wait when the input
ends. -/
structure Session (lines : List Text) (entries : List (List Text)) (rest : List Text) : Prop where
  cut : entries.flatten ++ rest = lines
  whole : ∀ e ∈ entries, IsEntry e
  goesOn : ∀ e ∈ entries.dropLast, asks (joined e) ≠ .quit
  stops : (∃ e ∈ entries, asks (joined e) = .quit) ∨ Waiting rest

section Sessions

variable {lines rest rest' : List Text} {e : List Text} {entries entries' : List (List Text)}

theorem session_nil : Session lines [] rest ↔ rest = lines ∧ Waiting rest := by
  constructor
  · rintro ⟨hcut, -, -, hstops⟩
    refine ⟨hcut, hstops.resolve_left ?_⟩
    rintro ⟨e, he, -⟩
    cases he
  · rintro ⟨rfl, hwait⟩
    exact ⟨rfl, fun _ he => (nomatch he), fun _ he => (nomatch he), .inr hwait⟩

/-- A session takes one entry and is over, or goes on with the lines behind it. -/
theorem session_cons : Session lines (e :: entries) rest ↔ ∃ later, lines = e ++ later ∧ IsEntry e
    ∧ (asks (joined e) = .quit ∧ entries = [] ∧ rest = later
      ∨ asks (joined e) ≠ .quit ∧ Session later entries rest) := by
  constructor
  · rintro ⟨hcut, hwhole, hgoesOn, hstops⟩
    obtain ⟨hentry, hwhole⟩ := List.forall_mem_cons.1 hwhole
    refine ⟨entries.flatten ++ rest, ?_, hentry, ?_⟩
    · rw [← hcut, List.flatten_cons, List.append_assoc]
    · cases entries with
      | nil =>
        by_cases hquit : asks (joined e) = .quit
        · exact .inl ⟨hquit, rfl, rfl⟩
        · refine .inr ⟨hquit, session_nil.2 ⟨rfl, hstops.resolve_left ?_⟩⟩
          rintro ⟨e', he', hquit'⟩
          exact hquit (List.mem_singleton.1 he' ▸ hquit')
      | cons e' entries =>
        obtain ⟨hquit, hgoesOn⟩ := List.forall_mem_cons.1 hgoesOn
        exact .inr ⟨hquit, rfl, hwhole, hgoesOn, hstops.imp_left fun h =>
          (List.exists_mem_cons_iff ..).1 h |>.resolve_left hquit⟩
  · rintro ⟨later, rfl, hentry, ⟨hquit, rfl, rfl⟩ | ⟨hquit, hcut, hwhole, hgoesOn, hstops⟩⟩
    · refine ⟨by rw [List.flatten_singleton], List.forall_mem_singleton.2 hentry,
        fun _ he => (nomatch he), .inl ⟨e, List.mem_singleton.2 rfl, hquit⟩⟩
    · refine ⟨by rw [List.flatten_cons, List.append_assoc, hcut],
        List.forall_mem_cons.2 ⟨hentry, hwhole⟩, ?_, ?_⟩
      · cases entries with
        | nil => exact fun _ he => (nomatch he)
        | cons e' entries => exact List.forall_mem_cons.2 ⟨hquit, hgoesOn⟩
      · exact hstops.imp_left fun ⟨e', he', hquit'⟩ => ⟨e', List.mem_cons_of_mem _ he', hquit'⟩

/-- Lines that wait and the ones behind them can be cut. -/
theorem exists_session {p : List Text} (hp : Waiting p) (lines : List Text) :
    ∃ entries rest, Session (p ++ lines) entries rest := by
  -- line by line, with the lines of the entry so far in `p`
  induction lines generalizing p with
  | nil => exact ⟨[], p, session_nil.2 ⟨(List.append_nil p).symm, hp⟩⟩
  | cons line lines ih =>
    rw [List.append_cons]
    by_cases hclosed : balance (joined (p ++ [line])) ≤ 0
    · have hentry := hp.isEntry hclosed
      by_cases hquit : asks (joined (p ++ [line])) = .quit
      · exact ⟨[p ++ [line]], lines, session_cons.2 ⟨lines, rfl, hentry, .inl ⟨hquit, rfl, rfl⟩⟩⟩
      · obtain ⟨entries, rest, hsession⟩ := ih Waiting.nil
        exact ⟨(p ++ [line]) :: entries, rest,
          session_cons.2 ⟨lines, rfl, hentry, .inr ⟨hquit, hsession⟩⟩⟩
    · exact ih (hp.snoc (Int.not_le.1 hclosed))

theorem Session.unique (h : Session lines entries rest) (h' : Session lines entries' rest') :
    entries = entries' ∧ rest = rest' := by
  induction entries generalizing lines entries' with
  | nil =>
    obtain ⟨rfl, hwait⟩ := session_nil.1 h
    cases entries' with
    | nil => exact ⟨rfl, (session_nil.1 h').1.symm⟩
    | cons e' entries' =>
      obtain ⟨later, rfl, hentry, -⟩ := session_cons.1 h'
      exact absurd hwait (hentry.not_waiting (List.prefix_append e' later))
  | cons e entries ih =>
    obtain ⟨later, rfl, hentry, hgo⟩ := session_cons.1 h
    cases entries' with
    | nil =>
      obtain ⟨rfl, hwait⟩ := session_nil.1 h'
      exact absurd hwait (hentry.not_waiting (List.prefix_append e later))
    | cons e' entries' =>
      obtain ⟨later', hlines, hentry', hgo'⟩ := session_cons.1 h'
      obtain rfl := hentry.unique hentry' (List.prefix_append e later) ⟨later', hlines.symm⟩
      obtain rfl := List.append_cancel_left hlines
      rcases hgo with ⟨hquit, rfl, rfl⟩ | ⟨hquit, hrest⟩
      · rcases hgo' with ⟨-, rfl, rfl⟩ | ⟨hquit', -⟩
        · exact ⟨rfl, rfl⟩
        · exact absurd hquit hquit'
      · rcases hgo' with ⟨hquit', -⟩ | ⟨-, hrest'⟩
        · exact absurd hquit' hquit
        · obtain ⟨rfl, rfl⟩ := ih hrest hrest'
          exact ⟨rfl, rfl⟩

end Sessions

/-! ### Running -/

/-- The prompts for some lines of an entry, the first of them its `i`-th. -/
def prompts (i n : Nat) : Text :=
  (List.range' i n).flatMap fun j => if j = 0 then "java> " else "  ... "

theorem prompts_add (i m n : Nat) : prompts i (m + n) = prompts i m ++ prompts (i + m) n := by
  simp only [prompts, ← List.flatMap_append, List.range'_append_1]

theorem Repl.prompt_eq (r : Repl) : r.prompt = prompts r.pending.length 1 := by
  unfold Repl.prompt prompts
  cases r.pending <;> simp

/-- A transcript with something printed before it. -/
def Transcript.behind (t : Transcript) (stdout stderr : Text) : Transcript :=
  { t with stdout := stdout ++ t.stdout, stderr := stderr ++ t.stderr }

theorem Transcript.behind_behind (t : Transcript) (out out' err err' : Text) :
    (t.behind out err).behind out' err' = t.behind (out' ++ out) (err' ++ err) := by
  simp only [Transcript.behind, List.append_assoc]

theorem Repl.run_cons (r : Repl) (line : Text) (lines : List Text) : r.run (line :: lines) =
    if (r.feed line).finished then
      ⟨r.prompt ++ (r.feed line).stdout, (r.feed line).stderr, (r.feed line).state.history⟩
    else ((r.feed line).state.run lines).behind (r.prompt ++ (r.feed line).stdout)
      (r.feed line).stderr := rfl

section Running

variable {mode : Mode} {history : History} {p q e lines : List Text} {line : Text}

theorem feed_open (h : 0 < balance (joined (p ++ [line]))) :
    Repl.feed { mode := mode, pending := p, history := history } line
      = { state := { mode := mode, pending := p ++ [line], history := history } } := by
  rw [← unclosedDepth_eq] at h
  exact if_neg (Int.not_le.2 h)

theorem feed_close (h : balance (joined (p ++ [line])) ≤ 0) :
    Repl.feed { mode := mode, pending := p, history := history } line
      = Repl.answer { mode := mode, history := history } (joined (p ++ [line])) := by
  rw [← unclosedDepth_eq] at h
  exact if_pos h

/-- Lines that wait are put behind the ones that are pending. -/
theorem run_waiting (h : Waiting (p ++ q)) :
    ({ mode := mode, pending := p, history := history } : Repl).run (q ++ lines) =
      (({ mode := mode, pending := p ++ q, history := history } : Repl).run lines).behind
        (prompts p.length q.length) [] := by
  induction q generalizing p with
  | nil =>
    rw [List.append_nil]
    rfl
  | cons line q ih =>
    rw [List.append_cons] at h ⊢
    have hopen := h (p ++ [line]) (List.prefix_append _ q)
      (List.append_ne_nil_of_right_ne_nil _ (List.cons_ne_nil _ _))
    rw [List.cons_append, Repl.run_cons, feed_open hopen, if_neg Bool.false_ne_true, ih h,
      Transcript.behind_behind, Repl.prompt_eq, List.append_nil, List.append_nil,
      List.length_append, List.length_singleton, ← prompts_add, List.length_cons, Nat.add_comm 1]

/-- An entry is read line by line, and answered when its last line has closed it. -/
theorem run_entry (h : IsEntry e) :
    ({ mode := mode, history := history } : Repl).run (e ++ lines) =
      let reply := (asks (joined e)).reply mode (joined e)
      if asks (joined e) = .quit then ⟨prompts 0 e.length, [], kept history (joined e)⟩
      else (({ mode := modeAfter mode [joined e], history := kept history (joined e) } : Repl).run
        lines).behind (prompts 0 e.length ++ reply.1) reply.2 := by
  obtain ⟨p, line, rfl, hwait⟩ := h.exists_snoc
  rw [List.append_assoc, run_waiting (p := []) hwait, List.nil_append, List.singleton_append,
    Repl.run_cons, feed_close h.closed, Repl.answer_eq]
  have hprompts : prompts 0 p.length ++ prompts p.length 1 = prompts 0 (p ++ [line]).length := by
    rw [List.length_append, List.length_singleton, prompts_add, Nat.zero_add]
  by_cases hquit : asks (joined (p ++ [line])) = .quit
  · simp only [hquit, decide_true, if_true, Request.reply, Transcript.behind, Repl.prompt_eq,
      List.append_nil, List.length_nil, hprompts]
  · simp only [hquit, decide_false, Bool.false_eq_true, if_false, Transcript.behind_behind,
      Repl.prompt_eq, List.nil_append, List.length_nil]
    rw [← List.append_assoc, hprompts]

end Running

/-! ### The whole conversation -/

/-- What is printed and what is complained for each of some entries: the prompts for its lines, and
what it asks for in the mode that the entries before it leave. -/
def answered (start : Mode) (entries : List (List Text)) : List (Text × Text) :=
  entries.mapIdx fun i e =>
    let reply := (asks (joined e)).reply (modeAfter start ((entries.take i).map joined)) (joined e)
    (prompts 0 e.length ++ reply.1, reply.2)

theorem answered_cons (start : Mode) (e : List Text) (entries : List (List Text)) :
    answered start (e :: entries) =
      (prompts 0 e.length ++ ((asks (joined e)).reply start (joined e)).1,
        ((asks (joined e)).reply start (joined e)).2)
        :: answered (modeAfter start [joined e]) entries := by
  unfold answered
  rw [List.mapIdx_cons, List.take_zero, List.map_nil, modeAfter_nil]
  have hmode : ∀ i, modeAfter start (((e :: entries).take (i + 1)).map joined)
      = modeAfter (modeAfter start [joined e]) ((entries.take i).map joined) := by
    intro i
    rw [List.take_succ_cons, List.map_cons, modeAfter_cons]
  simp only [hmode]

/-- The transcript of a session. -/
theorem run_of_session {start : Mode} {history : History} {lines rest : List Text}
    {entries : List (List Text)} (h : Session lines entries rest) :
    ({ mode := start, history := history } : Repl).run lines =
      { stdout := (answered start entries).flatMap Prod.fst ++
          if ∃ e ∈ entries, asks (joined e) = .quit then []
          else prompts 0 (rest.length + 1) ++ ("\n" : Text)
        stderr := (answered start entries).flatMap Prod.snd
        history := (entries.map joined).foldl kept history } := by
  induction entries generalizing start history lines with
  | nil =>
    obtain ⟨rfl, hwait⟩ := session_nil.1 h
    have hrun := @run_waiting start history [] rest [] hwait
    rw [List.append_nil] at hrun
    rw [hrun]
    simp [Repl.run, Transcript.behind, Repl.prompt_eq, answered, prompts_add 0 rest.length 1]
  | cons e entries ih =>
    obtain ⟨later, rfl, hentry, hgo⟩ := session_cons.1 h
    rw [run_entry hentry, answered_cons]
    rcases hgo with ⟨hquit, rfl, rfl⟩ | ⟨hquit, hrest⟩
    · simp [hquit, answered, Request.reply]
    · rw [if_neg hquit, ih hrest]
      simp [hquit, Transcript.behind]

/-- A conversation answers every entry of its lines once, in order and as a whole, in the mode that
was last asked for before it. The lines can be cut into entries in one way only; what is left over
and not answered is behind the entry that ends the conversation, or is never closed. -/
theorem run_session (start : Mode) (history : History) (lines : List Text) :
    (∃! c : List (List Text) × List Text, Session lines c.1 c.2)
      ∧ ∃ entries rest, Session lines entries rest
        ∧ ({ mode := start, history := history } : Repl).run lines =
          { stdout := (answered start entries).flatMap Prod.fst ++
              if ∃ e ∈ entries, asks (joined e) = .quit then []
              else prompts 0 (rest.length + 1) ++ ("\n" : Text)
            stderr := (answered start entries).flatMap Prod.snd
            history := (entries.map joined).foldl kept history } := by
  obtain ⟨entries, rest, hsession⟩ := exists_session Waiting.nil lines
  refine ⟨⟨(entries, rest), hsession, fun c hc => ?_⟩, entries, rest, hsession, ?_⟩
  · obtain ⟨hentries, hrest⟩ := hc.unique hsession
    exact Prod.ext hentries hrest
  · exact run_of_session hsession

end JavaPrimer
