import ExprLang.Proofs.Coverage
import ExprLang.Proofs.Lexing.Standing
import ExprLang.Proofs.Parsing.Erasure

/-!
White space and comments mean nothing. A text whose tokens are written again, with any blanks
between them that keep them apart, has the same tokens, and so the same tree or the same errors.
-/
namespace ExprLang

namespace Lexer

/-- White space with whatever blanks behind it. -/
def Separates (atEnd : Bool) (gap : List Char) : Prop :=
  ∃ c cs, gap = c :: cs ∧ isTriviaSpace c = true ∧ Blank atEnd cs

/-- What may follow a token when these lexemes are left to be written. -/
inductive Spaced : List (List Char) → List Char → Prop
  | last {gap : List Char} (h : gap = [] ∨ Separates true gap) : Spaced [] gap
  | next {gap lexeme : List Char} {lexemes : List (List Char)} {cs : List Char}
    (hgap : Separates false gap) (h : Spaced lexemes cs) :
    Spaced (lexeme :: lexemes) (gap ++ (lexeme ++ cs))

/-- A text of these lexemes, with blanks around them and white space behind each but the last. -/
inductive Respaced : List (List Char) → List Char → Prop
  | blank {gap : List Char} (h : Blank true gap) : Respaced [] gap
  | tokens {gap lexeme : List Char} {lexemes : List (List Char)} {cs : List Char}
    (hgap : Blank false gap) (h : Spaced lexemes cs) :
    Respaced (lexeme :: lexemes) (gap ++ (lexeme ++ cs))

/-- The texts of the tokens of a text, the end apart. -/
def lexemes (text : String) : List (List Char) :=
  (lex text).tokens.dropLast.map fun t => Source.slice text t.span

theorem Separates.blank {atEnd : Bool} {gap : List Char} (h : Separates atEnd gap) :
    Blank atEnd gap := by
  obtain ⟨c, cs, rfl, hc, hcs⟩ := h
  exact .space hc hcs

theorem Separates.apart {atEnd : Bool} {gap : List Char} (h : Separates atEnd gap)
    (rest : List Char) : Apart (gap ++ rest) := by
  obtain ⟨c, cs, rfl, hc, -⟩ := h
  exact apart_cons hc _

theorem Spaced.apart {ls : List (List Char)} {rest : List Char} (h : Spaced ls rest) :
    Apart rest := by
  cases h with
  | last h =>
    rcases h with rfl | h
    · exact apart_nil
    · exact List.append_nil rest ▸ h.apart []
  | next hgap => exact hgap.apart _

/-- A blank at the end of a text is one that may stand anywhere, and perhaps a comment that no line
break ends. -/
theorem exists_last_of_blank {gap : List Char} (h : Blank true gap) :
    ∃ before last, gap = before ++ last ∧ Blank false before ∧
      (last = [] ∨ ∃ body, last = '/' :: '/' :: body ∧ '\n' ∉ body) := by
  induction h with
  | nil => exact ⟨[], [], rfl, .nil, .inl rfl⟩
  | space hc _ ih =>
    obtain ⟨before, last, rfl, hbefore, hlast⟩ := ih
    exact ⟨_ :: before, last, rfl, .space hc hbefore, hlast⟩
  | block hbody _ ih =>
    obtain ⟨before, last, rfl, hbefore, hlast⟩ := ih
    exact ⟨_, last, by simp, .block hbody hbefore, hlast⟩
  | line hbody _ ih =>
    obtain ⟨before, last, rfl, hbefore, hlast⟩ := ih
    exact ⟨_, last, by simp, .line hbody hbefore, hlast⟩
  | @last body _ hbody => exact ⟨[], '/' :: '/' :: body, rfl, .nil, .inr ⟨body, rfl, hbody⟩⟩

theorem scan_last_line {body : List Char} (hbody : '\n' ∉ body) (p : Position) :
    (Trivia.scan .line p body).rest = [] ∧ (Trivia.scan .line p body).findings = [] := by
  induction body generalizing p with
  | nil => exact ⟨rfl, rfl⟩
  | cons c body ih =>
    have hc : c ≠ '\n' := fun h => hbody (h ▸ List.mem_cons_self)
    rw [Trivia.scan, if_neg hc]
    exact ih (fun h => hbody (List.mem_cons_of_mem c h)) _

theorem scan_last_blank {gap : List Char} (h : Blank true gap) (p : Position) :
    (Trivia.scan .between p gap).rest = [] ∧ (Trivia.scan .between p gap).findings = [] := by
  obtain ⟨before, last, rfl, hbefore, hlast⟩ := exists_last_of_blank h
  rw [Trivia.scan_blank hbefore]
  rcases hlast with rfl | ⟨body, rfl, hbody⟩
  · exact ⟨rfl, rfl⟩
  · exact scan_last_line hbody _

section Scanning

variable {budget : Nat} {p : Position} {xs : List Piece} {cs : List Char}

/-- These are the tokens, and there are no errors. -/
def Reads (l : Lexed) (ks : List TokenKind) : Prop :=
  l.findings = [] ∧ l.tokens.map (·.kind) = ks ++ [.endOfInput]

theorem reads_blank (h : Blank true cs) : Reads (scan budget p cs) [] := by
  obtain ⟨hrest, hfindings⟩ := scan_last_blank h p
  rw [scan_end rfl hrest hfindings]
  exact ⟨rfl, rfl⟩

/-- A token behind blanks is read, and the rest after it. -/
theorem reads_cons (hbudget : budget ≠ 0) {gap lexeme rest : List Char} {k : TokenKind}
    {ks : List TokenKind} (hgap : Blank false gap) (hstands : Stands k lexeme) (hrest : Apart rest)
    (h : ∀ q, Reads (scan budget q rest) ks) :
    Reads (scan budget p (gap ++ (lexeme ++ rest))) (k :: ks) := by
  obtain ⟨c, cs, hcs, hbetween, hscan⟩ := hstands rest hrest
  have ht : Trivia.scan .between p (gap ++ (lexeme ++ rest)) =
      (⟨[], c :: cs, p.advanceBy gap, []⟩ : Trivia).skip gap := by
    rw [Trivia.scan_blank hgap, hcs, hbetween]
  obtain ⟨hfindings, hkinds⟩ := h _
  rw [scan_token hbudget ht rfl rfl (hscan _) rfl]
  exact ⟨hfindings, congrArg (k :: ·) hkinds⟩

theorem reads_spaced (hbudget : budget ≠ 0) (hxs : ∀ x ∈ xs, Stands x.kind x.lexeme)
    (h : Spaced (xs.map (·.lexeme)) cs) : Reads (scan budget p cs) (xs.map (·.kind)) := by
  induction xs generalizing p cs with
  | nil =>
    cases h with
    | last h =>
      rcases h with rfl | h
      · exact reads_blank .nil
      · exact reads_blank h.blank
  | cons x xs ih =>
    obtain ⟨hx, hxs⟩ := List.forall_mem_cons.1 hxs
    rw [List.map_cons] at h
    cases h with
    | next hgap h => exact reads_cons hbudget hgap.blank hx h.apart fun _ => ih hxs h

theorem reads_respaced (hbudget : budget ≠ 0) (hxs : ∀ x ∈ xs, Stands x.kind x.lexeme)
    (h : Respaced (xs.map (·.lexeme)) cs) : Reads (scan budget p cs) (xs.map (·.kind)) := by
  cases xs with
  | nil =>
    cases h with
    | blank h => exact reads_blank h
  | cons x xs =>
    obtain ⟨hx, hxs⟩ := List.forall_mem_cons.1 hxs
    rw [List.map_cons] at h
    cases h with
    | tokens hgap h => exact reads_cons hbudget hgap hx h.apart fun _ => reads_spaced hbudget hxs h

theorem Piece.Scanned.stands {x : Piece} (h : x.Scanned []) : Stands x.kind x.lexeme := by
  obtain ⟨p, c, cs, rest, hc, hs⟩ := h
  exact stands_of_scanToken hc hs rfl

end Scanning

theorem reads_of_respaced {text text' : String} (hclean : (lex text).findings = [])
    (h : Respaced (lexemes text) text'.toList) :
    (lex text').findings = [] ∧
      (lex text').tokens.map (·.kind) = (lex text).tokens.map (·.kind) := by
  have hbudget : ErrorLog.limit ≠ 0 := by decide
  obtain ⟨gap, xs, htext, htokens, hxs, -⟩ := exists_clean_pieces hbudget hclean
  have hlexemes : lexemes text = xs.map (·.lexeme) := by
    have hslices := slices_tokens gap xs []
    rw [List.append_nil, ← htext, String.ofList_toList, ← Position.advanceBy_start,
      ← htokens] at hslices
    rw [lexemes, List.map_dropLast]
    exact (congrArg List.dropLast hslices).trans List.dropLast_concat
  have hreads : Reads (lex text') (xs.map (·.kind)) :=
    reads_respaced hbudget (fun x hx => (hxs x hx).stands) (hlexemes ▸ h)
  refine ⟨hreads.1, hreads.2.trans ?_⟩
  rw [← Piece.map_kind_tokens (Position.start.advanceBy gap), ← htokens]
  rfl

end Lexer

/-- An error apart from its place and the text it is in. -/
def CompileError.eraseSource (e : CompileError) : CompileError :=
  ⟨e.code, e.category, e.message, "", noSpan⟩

def ErrorLog.eraseSource (log : ErrorLog) : ErrorLog :=
  ⟨log.kept.map CompileError.eraseSource, log.total⟩

theorem ErrorLog.eraseSource_push (log : ErrorLog) (e : CompileError) :
    (log.push e).eraseSource = log.eraseSource.push e.eraseSource := by
  simp only [eraseSource, push, List.length_map]
  split
  · rw [List.map_append]
    rfl
  · rfl

theorem ErrorLog.eraseSource_ofFindings (text : String) (fs : List Finding) :
    (ofFindings text fs).eraseSource = ofFindings "" (fs.map Finding.eraseSpan) := by
  have hfold : ∀ log : ErrorLog,
      (fs.foldl (fun log f => log.push (.ofFinding text f)) log).eraseSource =
        (fs.map Finding.eraseSpan).foldl (fun log f => log.push (.ofFinding "" f))
          log.eraseSource := by
    induction fs with
    | nil => exact fun _ => rfl
    | cons f fs ih =>
      intro log
      rw [List.foldl_cons, ih, eraseSource_push]
      rfl
  exact hfold .empty

namespace Expr

/-- What a parse gives, apart from places and from the text. -/
def eraseSource (outcome : Except ErrorLog Expr) : Except ErrorLog Expr :=
  (outcome.map eraseSpans).mapError ErrorLog.eraseSource

theorem eraseSource_parse {text : String} (hclean : (lex text).findings = []) :
    eraseSource (parse text) =
      match ofTokens ((lex text).tokens.map Token.eraseSpan) with
      | ⟨some e, []⟩ => .ok e
      | ⟨_, findings⟩ => .error (.ofFindings "" findings) := by
  rw [ofTokens_eraseSpans, parse, hclean]
  simp only [List.isEmpty_nil, if_true]
  rcases ofTokens (lex text).tokens with ⟨_ | e, _ | ⟨f, fs⟩⟩
  · exact congrArg Except.error (ErrorLog.eraseSource_ofFindings text _)
  · exact congrArg Except.error (ErrorLog.eraseSource_ofFindings text _)
  · rfl
  · exact congrArg Except.error (ErrorLog.eraseSource_ofFindings text _)

end Expr

/-- White space and comments mean nothing: the tokens of a text without lexical errors are read
again with any others around them, and parse to the same tree or to the same errors. -/
theorem parse_respaced {text text' : String} (hclean : (lex text).findings = [])
    (h : Lexer.Respaced (Lexer.lexemes text) text'.toList) :
    (lex text').findings = [] ∧
      (lex text').tokens.map (·.kind) = (lex text).tokens.map (·.kind) ∧
      Expr.eraseSource (Expr.parse text') = Expr.eraseSource (Expr.parse text) := by
  obtain ⟨hclean', hkinds⟩ := Lexer.reads_of_respaced hclean h
  refine ⟨hclean', hkinds, ?_⟩
  have htokens :
      (lex text').tokens.map Token.eraseSpan = (lex text).tokens.map Token.eraseSpan := by
    have hmap := congrArg (List.map fun k => (⟨k, noSpan⟩ : Token)) hkinds
    rwa [List.map_map, List.map_map] at hmap
  rw [Expr.eraseSource_parse hclean', Expr.eraseSource_parse hclean, htokens]

/-- Both kinds of comments between the tokens of a text, which has a string that looks like one. -/
theorem parse_respaced_comments :
    let text := "1.5+a??'/*'"
    let text' := "/*/*/1.5 //\n+\ta\n/***/?? '/*' // b"
    (lex text).findings = [] ∧ Lexer.Respaced (Lexer.lexemes text) text'.toList ∧
      (lex text').findings = [] ∧
      (lex text').tokens.map (·.kind) = (lex text).tokens.map (·.kind) ∧
      Expr.eraseSource (Expr.parse text') = Expr.eraseSource (Expr.parse text) := by
  intro text text'
  have hclean : (lex text).findings = [] := by decide +kernel
  have hlexemes : Lexer.lexemes text =
      [['1', '.', '5'], ['+'], ['a'], ['?', '?'], ['\'', '/', '*', '\'']] := by decide +kernel
  have htext : text'.toList = ['/', '*', '/', '*', '/'] ++ (['1', '.', '5'] ++
      ([' ', '/', '/', '\n'] ++ (['+'] ++ (['\t'] ++ (['a'] ++
        (['\n', '/', '*', '*', '*', '/'] ++ (['?', '?'] ++ ([' '] ++
          (['\'', '/', '*', '\''] ++ [' ', '/', '/', ' ', 'b']))))))))) := by decide +kernel
  have hspace : ∀ {atEnd c cs}, isTriviaSpace c = true → Blank atEnd cs →
      Lexer.Separates atEnd (c :: cs) := fun hc hcs => ⟨_, _, rfl, hc, hcs⟩
  have hspaced : Lexer.Respaced (Lexer.lexemes text) text'.toList := by
    rw [hlexemes, htext]
    refine .tokens (.block (show ¬ ['*', '/'] <:+: ['/'] by decide) .nil) ?_
    refine .next (hspace rfl (.line (List.not_mem_nil : '\n' ∉ []) .nil)) ?_
    refine .next (hspace rfl .nil) ?_
    refine .next (hspace rfl (.block (show ¬ ['*', '/'] <:+: ['*'] by decide) .nil)) ?_
    refine .next (hspace rfl .nil) ?_
    exact .last (.inr (hspace rfl (.last rfl (show '\n' ∉ [' ', 'b'] by decide))))
  have hrespaced := parse_respaced hclean hspaced
  exact ⟨hclean, hspaced, hrespaced⟩

end ExprLang
