import JavaPrimer.Proofs.MentionedNames
import JavaPrimer.Proofs.ReadBackTree
import JavaPrimer.Proofs.StatementBoundary
import JavaPrimer.Proofs.Termination

/-!
# Statements inside a main method

A list of tokens that is fine as bare statements is fine as the body of a main method, and it is read
as the same statements, spans included. Checked there, the same is wrong with their names, unless
they mention the parameter.

Bare statements go on up to the end of input, those of a body up to the closing brace. Without
errors no brace stops them early, and the brace behind them stops the body where the input would end.

* `Parse.whileMore_inBlock` — among tokens without errors both conditions stop at the end only;
* `Parse.gives_upToBrace` — the same statements when a closing brace follows;
* `MainFrame`, `MainFrame.around` — the tokens of a class with a main method, around others;
* `MainFrame.IsProgram` — the tree of that class, around statements;
* `Parse.gives_framed_program`, `findings_main` — how the frame is read and checked;
* `parseProgram_around` — the two ways to read the same tokens agree.
-/

namespace JavaPrimer

namespace Parse

/-! ### Up to a closing brace -/

variable {c d : Cursor}

/-- One statement with its recovery. -/
def oneStatement : Parse .short (Option Stmt) := recovering Cursor.endStatement statement

theorem reads_oneStatement (hc : c.Calm) :
    oneStatement.Reads c fun ts o => ∃ x, o = some x ∧ x.Takes ts := by
  apply reads_recovering (reads_statement hc)
  rintro o ⟨x, -, hx⟩
  exact x.not_readFrom_nil hx.1

/-- A statement that is read without an error does not start with a closing brace. -/
theorem inBlock_of_clean (hc : c.Calm) (hclean : (oneStatement c).diagnostics = []) :
    inBlock c = true := by
  obtain ⟨-, ts, hts, x, -, hx⟩ := reads_oneStatement hc hclean
  obtain ⟨t, us, rfl, ht⟩ := Stmt.startsStatement_of_readFrom hx.1
  have hrest : c.rest = t :: (us ++ (oneStatement c).cursor.rest) := hts.rest
  have hne : t.kind ≠ .rbrace := by
    intro hk
    rw [hk] at ht
    cases ht
  simp [inBlock, Cursor.atEnd, Cursor.kind, Cursor.current_cons hrest, hrest, hne]

/-- Without errors statements go on to the end of input, also if they would stop at a brace. -/
theorem whileMore_inBlock : ∀ n {c : Cursor}, c.rest.length ≤ n → c.Calm →
    (whileMore goesOn oneStatement c).diagnostics = [] →
      whileMore inBlock oneStatement c = whileMore goesOn oneStatement c := by
  intro n
  induction n with
  | zero =>
    intro c hn hc _
    have hnil := List.eq_nil_of_length_eq_zero (Nat.le_zero.1 hn)
    simp only [whileMore, hnil, List.length_nil, collect]
  | succ n ih =>
    intro c hn hc hclean
    have hin : collectRound inBlock oneStatement (whileMore inBlock oneStatement) c
        = whileMore inBlock oneStatement c :=
      (ends_recovering rest_of_inBlock Cursor.endStatement_skips forward_statement).unfolds c hc.stop
    have hgo : collectRound goesOn oneStatement (whileMore goesOn oneStatement) c
        = whileMore goesOn oneStatement c :=
      (ends_recovering rest_of_goesOn Cursor.endStatement_skips forward_statement).unfolds c hc.stop
    rw [← hgo] at hclean ⊢
    rw [← hin]
    by_cases hnil : c.rest = []
    · have hstop : inBlock c = false ∧ goesOn c = false := by
        simp [inBlock, goesOn, Cursor.atEnd, hnil]
      rw [collectRound_stop hstop.1, collectRound_stop hstop.2]
    · have hmore := goesOn_iff.2 hnil
      rw [collectRound_more hmore] at hclean ⊢
      obtain ⟨hfirst, hrest⟩ := List.append_eq_nil_iff.1 hclean
      have hlt := recovering_statement_lt hnil
      obtain ⟨hcalm, -⟩ := reads_oneStatement hc hfirst
      have hbound : (oneStatement c).cursor.rest.length ≤ n := by
        show (recovering Cursor.endStatement statement c).cursor.rest.length ≤ n
        omega
      rw [collectRound_more (inBlock_of_clean hc hfirst), ih hbound hcalm hrest]

/-- Statements without errors up to the end of input are read the same up to a closing brace. -/
theorem gives_upToBrace {r : Token} {ts : List Token} (hr : r.kind = .rbrace) (hc : c.Calm)
    (hlast : d.last = c.last) (hd : d.At (c.rest ++ r :: ts))
    (hclean : (whileMore goesOn oneStatement c).diagnostics = []) :
    (whileMore inBlock oneStatement).Gives d (r :: ts)
      (· = (whileMore goesOn oneStatement c).value) := by
  have hcloses : ∀ t ∈ (r :: ts).head?, t.kind = .rbrace := by
    intro t ht
    cases ht
    exact hr
  have hplaces : (Mirror.followed (r :: ts) hcloses d.behind).Places (c.rest.length + 1) c d :=
    Mirror.places_followed hlast (hd.quiet.trans hc.quiet.symm) hd.rest hc.stop
      (.inr ⟨List.cons_ne_nil r ts, hc⟩) (Nat.lt_succ_self _)
  have hsame := whileMore_inBlock c.rest.length (Nat.le_refl _) hc hclean
  have hreflects : (Mirror.followed (r :: ts) hcloses d.behind).Reflects (c.rest.length + 1)
      (List.Forall₂ (Mirror.followed (r :: ts) hcloses d.behind).Same)
      (whileMore goesOn oneStatement c) (whileMore inBlock oneStatement d) := by
    rw [← hsame] at hclean ⊢
    exact Mirror.mirroring_blockStatements forward_statement Mirror.mirroring_statement _
      (Nat.le_refl _) c d hplaces (.inr hclean)
  constructor
  case clean =>
    have hnone := hreflects.diagnostics
    rw [hclean] at hnone
    exact List.forall₂_nil_left_iff.1 hnone
  case ends =>
    have hend : (whileMore goesOn oneStatement c).cursor.rest = [] :=
      rest_whileMore_atEnd Cursor.endStatement_skips forward_statement c
    obtain ⟨us, hus, hall⟩ := hreflects.places.rest
    rw [hend] at hall
    cases hall
    have hcalm : (whileMore goesOn oneStatement c).cursor.Calm := by
      rcases hreflects.places.ends with ⟨hnil, -⟩ | ⟨-, hcalm⟩
      · cases hnil
      · exact hcalm
    have hforward : Forward (whileMore inBlock oneStatement) :=
      forward_whileMore inBlock (forward_recovering Cursor.endStatement_skips forward_statement)
    refine ⟨hus, hreflects.places.panicking.trans hcalm.quiet, ?_⟩
    rw [(hforward d).stop]
    exact hd.stop
  case value =>
    exact Mirror.same_list (fun _ _ hxy => hxy) hreflects.value fun _ _ htu => htu.symm

/-- Bare statements are the same after any token that is not cut off. -/
theorem whileMore_after (tokens : List Token) {l : Token} (hl : l.unterminated = false) :
    (whileMore goesOn oneStatement { Cursor.ofTokens tokens with last := some l }).value
        = (whileMore goesOn oneStatement (.ofTokens tokens)).value
      ∧ (whileMore goesOn oneStatement { Cursor.ofTokens tokens with last := some l }).diagnostics
        = (whileMore goesOn oneStatement (.ofTokens tokens)).diagnostics := by
  by_cases hnil : (Cursor.ofTokens tokens : Cursor).rest = []
  · have hend : ∀ c : Cursor, c.rest = [] → whileMore goesOn oneStatement c = ⟨[], [], c⟩ :=
      fun c hc => statementsWithin_end hc c.rest.length
    rw [hend _ hnil, hend { Cursor.ofTokens tokens with last := some l } hnil]
    exact ⟨rfl, rfl⟩
  · have hanew : Cursor.Anew (.ofTokens tokens) { Cursor.ofTokens tokens with last := some l } := by
      refine ⟨rfl, rfl, rfl, ?_, ?_, hnil⟩
      · intro t ht
        rw [(Cursor.fields_ofTokens tokens).1] at ht
        cases ht
      · intro t ht
        cases ht
        exact hl
    exact statementsWithin_anew hanew (Cursor.fields_ofTokens tokens).2 (Nat.le_refl _)
      (Nat.le_refl _)

end Parse

/-! ### The frame -/

/-- A token of a kind. -/
def TokenOf (k : Kind) : Type := { t : Token // t.kind = k }

/-- Tokens of the kinds given, in order. -/
def TokensOf (ks : List Kind) : Type := { ts : List Token // ts.map Token.kind = ks }

/-- The identifier that a token spells. -/
def TokenOf.ident (t : TokenOf .ident) : Ident := ⟨t.val.value, t.val.span⟩

/-- The tokens of a class with a main method that stand around the statements of its body:
`public class C { public static void m ( String [ ] p ) {` in front of them and two closing
braces behind. -/
structure MainFrame where
  classWords : TokensOf [.kwPublic, .kwClass]
  className : TokenOf .ident
  classOpening : TokenOf .lbrace
  methodWords : TokensOf [.kwPublic, .kwStatic, .kwVoid]
  method : TokenOf .ident
  paramWords : TokensOf [.lparen, .kwString, .lbracket, .rbracket]
  param : TokenOf .ident
  paramClosing : TokenOf .rparen
  bodyOpening : TokenOf .lbrace
  bodyClosing : TokenOf .rbrace
  classClosing : TokenOf .rbrace
  /-- Only literals are cut off. -/
  whole : bodyOpening.val.unterminated = false

namespace MainFrame

variable (f : MainFrame) (tokens : List Token) (stmts : List Stmt)

/-- The tokens of the body. -/
def body : List Token := f.bodyOpening.val :: (tokens ++ [f.bodyClosing.val])

/-- The tokens of the main method. -/
def mainMethod : List Token :=
  f.methodWords.val ++ f.method.val ::
    (f.paramWords.val ++ f.param.val :: f.paramClosing.val :: f.body tokens)

/-- The tokens of the class. -/
def around : List Token :=
  f.classWords.val ++ f.className.val :: f.classOpening.val ::
    (f.mainMethod tokens ++ [f.classClosing.val])

theorem kinds_around : (f.around tokens).map Token.kind
    = [.kwPublic, .kwClass, .ident, .lbrace, .kwPublic, .kwStatic, .kwVoid, .ident, .lparen,
        .kwString, .lbracket, .rbracket, .ident, .rparen, .lbrace]
      ++ (tokens.map Token.kind ++ [.rbrace, .rbrace]) := by
  simp only [around, mainMethod, body, List.map_append, List.map_cons, List.map_nil,
    List.append_assoc, List.cons_append, List.nil_append, f.classWords.property,
    f.className.property, f.classOpening.property, f.methodWords.property, f.method.property,
    f.paramWords.property, f.param.property, f.paramClosing.property, f.bodyOpening.property,
    f.bodyClosing.property, f.classClosing.property]

/-- The main method around statements, wherever it stands. -/
def IsMain (x : Member) : Prop :=
  ∃ s s', x = .main s f.method.ident f.param.ident (some ⟨s', stmts⟩)

/-- The class around statements, wherever it stands. -/
def IsClass (x : ClassDecl) : Prop := ∃ s y, x = ⟨s, f.className.ident, [y]⟩ ∧ f.IsMain stmts y

/-- The program around statements, wherever it stands. -/
def IsProgram (root : Root) : Prop := ∃ s x, root = .program s [x] ∧ f.IsClass stmts x

end MainFrame

/-- Tokens that are fine as bare statements: none of them is an end of input or cut off, and there is
no error. -/
structure Fine (tokens : List Token) : Prop where
  noEnd : ∀ t ∈ tokens, t.kind ≠ .eof
  whole : ∀ t ∈ tokens, t.unterminated = false
  clean : (parseStatements tokens).diagnostics = []

/-- The statements among bare tokens. -/
def bareStatements (tokens : List Token) : List Stmt :=
  (Parse.whileMore Parse.goesOn Parse.oneStatement (.ofTokens tokens)).value

theorem root_parseStatements (tokens : List Token) :
    ∃ s, (parseStatements tokens).root = .statements s (bareStatements tokens) := by
  rw [parseStatements_short]
  exact ⟨_, rfl⟩

namespace Parse

variable {c : Cursor} {tokens ts : List Token} (f : MainFrame)

/-- The statements of the body are those of the bare tokens. -/
theorem gives_framed_block (h : Fine tokens) (hc : c.At (f.body tokens ++ ts)) :
    (block statement).Gives c ts fun b => b.stmts = bareStatements tokens := by
  rw [MainFrame.body, List.cons_append, List.append_assoc] at hc
  obtain ⟨hvalue, hdiagnostics⟩ := whileMore_after tokens f.whole
  obtain ⟨s, -, hclean⟩ := parseStatements_eq tokens
  have hrest : (Cursor.ofTokens tokens : Cursor).rest = tokens := Cursor.rest_of_no_end h.noEnd
  have hcalm : { Cursor.ofTokens tokens with last := some f.bodyOpening.val }.Calm := by
    refine ⟨(Cursor.fields_ofTokens tokens).2, ?_, ?_, Cursor.kind_stop_ofTokens tokens⟩
    · intro t ht
      cases ht
      exact f.whole
    · rw [hrest]
      exact h.whole
  have hlast : c.advance.last = some f.bodyOpening.val := by rw [Cursor.advance_cons hc.rest]
  have hstmts : (whileMore inBlock oneStatement).Gives c.advance ([f.bodyClosing.val] ++ ts)
      (· = bareStatements tokens) := by
    rw [bareStatements, ← hvalue]
    apply gives_upToBrace f.bodyClosing.property hcalm hlast
    · rw [hrest]
      exact hc.advance
    · exact hdiagnostics.trans (hclean.symm.trans h.clean)
  apply gives_spanned
  apply gives_advance_bind_at
  refine hstmts.bind fun d stmts hd hQ => ?_
  exact gives_expect_bind hd f.bodyClosing.property fun d hd => gives_pure hd fun s => hQ

theorem gives_framed_member (h : Fine tokens) (hc : c.At (f.mainMethod tokens ++ ts)) :
    member.Gives c ts (f.IsMain (bareStatements tokens)) := by
  rw [MainFrame.mainMethod] at hc
  simp only [List.append_assoc, List.cons_append] at hc
  have hbody : ∀ d : Cursor, d.At (f.body tokens ++ ts) →
      methodBody.Gives d ts fun o => ∃ b, o = some b ∧ b.stmts = bareStatements tokens :=
    fun d hd => gives_methodBody f.bodyOpening.property (gives_framed_block f h hd) hd
  apply gives_look_bind
  rw [if_pos (startsMain_of_kinds hc f.methodWords.property)]
  refine (gives_mainMethod_of_body f.methodWords.property f.method.property f.paramWords.property
    f.param.property f.paramClosing.property hbody hc).imp ?_
  rintro _ ⟨s, _, rfl, ⟨s', xs⟩, rfl, rfl⟩
  exact ⟨s, s', rfl⟩

/-- The main method is the only member. -/
theorem gives_framed_members (h : Fine tokens)
    (hc : c.At (f.mainMethod tokens ++ [f.classClosing.val])) :
    (whileMore inBlock (recovering Cursor.endMember (some <$> member))).Gives c
      [f.classClosing.val] fun xs => ∃ x, xs = [x] ∧ f.IsMain (bareStatements tokens) x := by
  obtain ⟨t, us, hwords, hpublic, -⟩ := List.map_eq_cons_iff.1 f.methodWords.property
  have hfront : ∃ vs, f.mainMethod tokens = t :: vs := by
    rw [MainFrame.mainMethod, hwords]
    exact ⟨_, rfl⟩
  obtain ⟨vs, hvs⟩ := hfront
  apply gives_whileMore_one
  · rw [hvs] at hc
    exact inBlock_of_ne hc (by rw [hpublic]; decide)
  · rw [hc.rest, hvs]
    simp
  · exact ((gives_framed_member f h hc).imp fun x hx => ⟨x, rfl, hx⟩).map
  · exact fun d hd => inBlock_of_rbrace hd f.classClosing.property

/-- The class is the only one. -/
theorem gives_framed_classes (h : Fine tokens) (hc : c.At (f.around tokens)) :
    classes.Gives c [] fun xs => ∃ x, xs = [x] ∧ f.IsClass (bareStatements tokens) x := by
  have hpos : 0 < c.rest.length := by
    rw [hc.rest, MainFrame.around]
    simp only [List.length_append, List.length_cons]
    omega
  apply gives_whileMore_one
  · simpa [Cursor.atEnd] using List.length_pos_iff.1 hpos
  · exact hpos
  · refine (gives_classOrSkip_of_members f.classWords.property f.className.property
      f.classOpening.property f.classClosing.property
      (fun d hd => gives_framed_members f h hd) hc).imp ?_
    rintro _ ⟨s, _, rfl, x, rfl, hx⟩
    exact ⟨_, rfl, s, x, rfl, hx⟩
  · exact fun d hd => by simp [Cursor.atEnd, hd.rest]

theorem gives_framed_program (h : Fine tokens) (hc : c.At (f.around tokens)) :
    program.Gives c [] (f.IsProgram (bareStatements tokens)) := by
  refine (gives_program_of_classes (gives_framed_classes f h hc) ?_).imp ?_
  · rintro _ ⟨x, rfl, -⟩
    exact List.cons_ne_nil x []
  · rintro _ ⟨s, _, rfl, x, rfl, hx⟩
    exact ⟨s, x, rfl, hx⟩

end Parse

/-! ### The scopes of the body -/

/-- The scopes of a main method without fields around it: those of bare statements, but for the
parameter. -/
theorem agreeOn_main (param : Ident) :
    Scopes.AgreeOn (· ≠ param.name) [[]] [[], []]
      ∧ Scopes.AgreeOn (· ≠ param.name) [[]] (Scopes.declare param false [[], []]).2 := by
  have hnone : ∀ name, name ≠ param.name →
      findBinding? name [⟨param.name, false, param.span.start.line⟩] = none := by
    intro name hname
    rw [Scopes.findBinding?_cons, if_neg hname.symm]
    rfl
  have hscopes : (Scopes.declare param false [[], []]).2
      = [[⟨param.name, false, param.span.start.line⟩], []] := rfl
  refine ⟨⟨fun _ _ => rfl, fun _ _ => rfl⟩, ?_⟩
  rw [hscopes]
  constructor
  · intro name hname
    rw [Scopes.find?_eq, List.headD_cons, hnone name hname]
    rfl
  · exact hnone

/-- A program with only a main method is checked like its statements, if they do not mention the
parameter. -/
theorem findings_main {f : MainFrame} {stmts : List Stmt} {root : Root} {ts : List Token}
    {s : Span} (hroot : f.IsProgram stmts root) (hread : ReadEach Stmt.ReadFrom stmts ts)
    (hparam : ¬ NamedIn ts f.param.val.value) (known : List Text) :
    root.findings known = (Root.statements s stmts).findings known := by
  obtain ⟨s₁, _, rfl, s₂, _, rfl, s₃, s₄, rfl⟩ := hroot
  have hfound : ∀ after, Scopes.AgreeOn (· ≠ f.param.val.value) [[]] after →
      (stmtsFindings known after stmts).1 = (stmtsFindings known [[]] stmts).1 :=
    fun after hafter => stmtsFindings_of_unnamed hread hparam hafter
  obtain ⟨hplain, hdeclared⟩ := agreeOn_main f.param.ident
  have hmain : (Root.program s₁ [⟨s₂, f.className.ident,
        [.main s₃ f.method.ident f.param.ident (some ⟨s₄, stmts⟩)]⟩]).findings known
      = (Member.mainFindings known [[]]
        (.main s₃ f.method.ident f.param.ident (some ⟨s₄, stmts⟩))).1 := by
    show [] ++ ((Member.mainFindings known [[]] _).1 ++ []) = _
    rw [List.nil_append, List.append_nil]
  rw [hmain, Member.mainFindings, inScope, Root.findings, inScope]
  by_cases hempty : f.param.ident.name.isEmpty = true
  · rw [if_pos hempty]
    exact hfound _ hplain
  · rw [if_neg hempty]
    exact hfound _ hdeclared

/-! ### The two ways to read -/

/-- The two modes agree. A list of tokens that is fine as bare statements is fine as the body of a
main method, where the same statements are read; and scope checking finds the same in both trees,
whatever names are built in, if the parameter is not mentioned. -/
theorem parseProgram_around (f : MainFrame) {tokens : List Token}
    (hend : ∀ t ∈ tokens, t.kind ≠ .eof) (hwhole : ∀ t ∈ tokens, t.unterminated = false)
    (hclean : (parseStatements tokens).diagnostics = []) :
    (parseProgram (f.around tokens)).diagnostics = []
      ∧ (∃ s stmts, (parseStatements tokens).root = .statements s stmts
        ∧ f.IsProgram stmts (parseProgram (f.around tokens)).root)
      ∧ (¬ NamedIn tokens f.param.val.value → ∀ extra,
        checkScopes extra (parseProgram (f.around tokens)).root
          = checkScopes extra (parseStatements tokens).root) := by
  obtain ⟨s, hroot⟩ := root_parseStatements tokens
  have hframe : ∀ t ∈ f.around tokens, t.kind ≠ .eof := by
    intro t ht hk
    have hmem : Kind.eof ∈ (f.around tokens).map Token.kind := List.mem_map.2 ⟨t, ht, hk⟩
    rw [f.kinds_around] at hmem
    obtain ⟨u, hu, huk⟩ : ∃ u ∈ tokens, u.kind = .eof := by simpa using hmem
    exact hend u hu huk
  have hread : ReadEach Stmt.ReadFrom (bareStatements tokens) tokens := by
    have hwhole := readFrom_of_parseStatements hwhole hclean
    rwa [hroot, Cursor.takeWhile_of_no_end hend] at hwhole
  have hgives : Parse.program.Gives (.ofTokens (f.around tokens)) []
      (f.IsProgram (bareStatements tokens)) := by
    apply Parse.gives_framed_program f ⟨hend, hwhole, hclean⟩
    have hat := Cursor.at_ofTokens (f.around tokens)
    rwa [Cursor.takeWhile_of_no_end hframe] at hat
  rw [parseProgram_short]
  refine ⟨hgives.clean, ⟨s, bareStatements tokens, hroot, hgives.value⟩, ?_⟩
  intro hparam extra
  rw [hroot, checkScopes, checkScopes, ← findings_main hgives.value hread hparam]
  rfl

/-- The frame `public class C { public static void main ( String [ ] args ) {`, all on the first
line. -/
def smallFrame : MainFrame where
  classWords := ⟨[⟨.kwPublic, "public", ⟨⟨1, 1⟩, ⟨1, 7⟩⟩, false⟩,
    ⟨.kwClass, "class", ⟨⟨1, 8⟩, ⟨1, 13⟩⟩, false⟩], rfl⟩
  className := ⟨⟨.ident, "C", ⟨⟨1, 14⟩, ⟨1, 15⟩⟩, false⟩, rfl⟩
  classOpening := ⟨⟨.lbrace, "\x7b", ⟨⟨1, 16⟩, ⟨1, 17⟩⟩, false⟩, rfl⟩
  methodWords := ⟨[⟨.kwPublic, "public", ⟨⟨1, 18⟩, ⟨1, 24⟩⟩, false⟩,
    ⟨.kwStatic, "static", ⟨⟨1, 25⟩, ⟨1, 31⟩⟩, false⟩,
    ⟨.kwVoid, "void", ⟨⟨1, 32⟩, ⟨1, 36⟩⟩, false⟩], rfl⟩
  method := ⟨⟨.ident, "main", ⟨⟨1, 37⟩, ⟨1, 41⟩⟩, false⟩, rfl⟩
  paramWords := ⟨[⟨.lparen, "(", ⟨⟨1, 42⟩, ⟨1, 43⟩⟩, false⟩,
    ⟨.kwString, "String", ⟨⟨1, 44⟩, ⟨1, 50⟩⟩, false⟩,
    ⟨.lbracket, "[", ⟨⟨1, 51⟩, ⟨1, 52⟩⟩, false⟩, ⟨.rbracket, "]", ⟨⟨1, 53⟩, ⟨1, 54⟩⟩, false⟩], rfl⟩
  param := ⟨⟨.ident, "args", ⟨⟨1, 55⟩, ⟨1, 59⟩⟩, false⟩, rfl⟩
  paramClosing := ⟨⟨.rparen, ")", ⟨⟨1, 60⟩, ⟨1, 61⟩⟩, false⟩, rfl⟩
  bodyOpening := ⟨⟨.lbrace, "\x7b", ⟨⟨1, 62⟩, ⟨1, 63⟩⟩, false⟩, rfl⟩
  bodyClosing := ⟨⟨.rbrace, "\x7d", ⟨⟨3, 1⟩, ⟨3, 2⟩⟩, false⟩, rfl⟩
  classClosing := ⟨⟨.rbrace, "\x7d", ⟨⟨3, 3⟩, ⟨3, 4⟩⟩, false⟩, rfl⟩
  whole := rfl

/-- The declaration `int x = y ;` on the second line, with a name that is not declared. -/
def undeclaredInit : List Token :=
  [⟨.kwInt, "int", ⟨⟨2, 1⟩, ⟨2, 4⟩⟩, false⟩, ⟨.ident, "x", ⟨⟨2, 5⟩, ⟨2, 6⟩⟩, false⟩,
    ⟨.equals, "=", ⟨⟨2, 7⟩, ⟨2, 8⟩⟩, false⟩, ⟨.ident, "y", ⟨⟨2, 9⟩, ⟨2, 10⟩⟩, false⟩,
    ⟨.semi, ";", ⟨⟨2, 11⟩, ⟨2, 12⟩⟩, false⟩]

/-- One name is not declared, in either mode. -/
theorem parseProgram_around_undeclaredInit :
    (parseStatements undeclaredInit).diagnostics = []
      ∧ ¬ NamedIn undeclaredInit smallFrame.param.val.value
      ∧ (parseProgram (smallFrame.around undeclaredInit)).diagnostics = []
      ∧ (∃ s stmts, (parseStatements undeclaredInit).root = .statements s stmts
        ∧ smallFrame.IsProgram stmts (parseProgram (smallFrame.around undeclaredInit)).root)
      ∧ (checkScopes [] (parseStatements undeclaredInit).root).length = 1
      ∧ checkScopes [] (parseProgram (smallFrame.around undeclaredInit)).root
        = checkScopes [] (parseStatements undeclaredInit).root := by
  have hclean : (parseStatements undeclaredInit).diagnostics = [] := by decide
  have hparam : ¬ NamedIn undeclaredInit smallFrame.param.val.value := by decide
  obtain ⟨hprogram, htree, hscopes⟩ :=
    parseProgram_around smallFrame (by decide) (by decide) hclean
  exact ⟨hclean, hparam, hprogram, htree, by decide, hscopes hparam []⟩

end JavaPrimer
