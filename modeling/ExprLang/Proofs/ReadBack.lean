import ExprLang.Proofs.Lexing
import ExprLang.Proofs.Parsing.Makes

/-!
No token is lost. Read from left to right a parsed tree gives back the tokens it was parsed from,
those apart that leave no trace in it.
-/
namespace ExprLang

variable {α : Type}

namespace Expr

mutual

/-- The tokens that a tree shows, in their order. -/
def tokensBack : Expr → List TokenKind
  | .literal _ l => [l.token]
  | .identifier _ name => [.identifier name]
  | .topic _ => [.symbol .percent]
  | .unary _ op argument => op.token :: argument.tokensBack
  | .binary _ op left right => left.tokensBack ++ op.token :: right.tokensBack
  | .logical _ op left right => left.tokensBack ++ op.token :: right.tokensBack
  | .coalesce _ left right => left.tokensBack ++ .symbol .questionQuestion :: right.tokensBack
  | .conditional _ test consequent alternate =>
    .keyword .if_ :: test.tokensBack ++ .keyword .then_ :: consequent.tokensBack ++
      alternateBack alternate
  | .object _ properties =>
    .symbol .leftBrace :: TokenKind.listed false (propertiesBack properties) ++
      [.symbol .rightBrace]
  -- A hole at the end shows as the comma behind it.
  | .array _ elements =>
    .symbol .leftBracket ::
      TokenKind.listed (elements.getLast?.any (·.isNone)) (elementsBack elements) ++
        [.symbol .rightBracket]
  | .member _ target key computed extended =>
    target.tokensBack ++
      if computed then .symbol .leftBracket :: key.tokensBack ++ [.symbol .rightBracket]
      else [.symbol (if extended then .colonColon else .dot), key.nameToken]
  | .call _ callee arguments =>
    callee.tokensBack ++
      (.symbol .leftParen :: TokenKind.listed false (argumentsBack arguments) ++
        [.symbol .rightParen])
  | .pipe _ head stages => head.tokensBack ++ stagesBack stages
  | .lambda _ parameters body => parametersBack parameters ++ .symbol .arrow :: body.tokensBack
  | .letIn _ declarations body => .keyword .let_ :: declarationsBack declarations ++ body.tokensBack

def alternateBack : Option Expr → List TokenKind
  | none => []
  | some e => .keyword .else_ :: e.tokensBack

/-- The tokens of each property. -/
def propertiesBack : List (Property Expr) → List (List TokenKind)
  | [] => []
  | ⟨key, value, _⟩ :: ps => (key.token :: .symbol .colon :: value.tokensBack) :: propertiesBack ps

def elementBack : Option Expr → List TokenKind
  | none => []
  | some e => e.tokensBack

/-- The tokens of each element. -/
def elementsBack : List (Option Expr) → List (List TokenKind)
  | [] => []
  | e :: es => elementBack e :: elementsBack es

def argumentBack : Argument Expr → List TokenKind
  | .value e => e.tokensBack
  | .placeholder _ => [.symbol .hash]

/-- The tokens of each argument. -/
def argumentsBack : List (Argument Expr) → List (List TokenKind)
  | [] => []
  | a :: as => argumentBack a :: argumentsBack as

def stagesBack : List (Stage Expr) → List TokenKind
  | [] => []
  | ⟨optional, body⟩ :: ss =>
    .symbol (if optional then .pipeQuestion else .pipe) :: body.tokensBack ++ stagesBack ss

/-- The only parameter of a lambda stands without parentheses. -/
def parametersBack : List Name → List TokenKind
  | [p] => [.identifier p.text]
  | ps =>
    .symbol .leftParen :: TokenKind.listed false (ps.map fun p => [.identifier p.text]) ++
      [.symbol .rightParen]

def declarationsBack : List (Declaration Expr) → List TokenKind
  | [] => []
  | ⟨name, init, _⟩ :: ds =>
    .identifier name.text :: .symbol .equal :: init.tokensBack ++ .symbol .comma ::
      declarationsBack ds

end

end Expr

/-- The tokens that a tree shows, of those it is spelled with. -/
def Sign.shown (us : List Sign) : List TokenKind :=
  (us.filter fun u => u.role = .part).map (·.token.kind)

namespace Sign

@[simp] theorem shown_nil : shown [] = [] := rfl

@[simp] theorem shown_append (us vs : List Sign) : shown (us ++ vs) = shown us ++ shown vs := by
  rw [shown, List.filter_append, List.map_append, shown, shown]

@[simp] theorem shown_part_cons (kind : TokenKind) (span : Span) (us : List Sign) :
    shown (.part kind span :: us) = kind :: shown us := rfl

@[simp] theorem shown_other_cons {t : Token} {role : Role} (h : role ≠ .part) (us : List Sign) :
    shown (⟨t, role⟩ :: us) = shown us := by
  rw [shown, List.filter_cons_of_neg (by simpa using h), shown]

theorem shown_flatMap (xs : List α) (f : α → List Sign) :
    shown (xs.flatMap f) = xs.flatMap fun x => shown (f x) := by
  rw [shown, List.filter_flatMap, List.map_flatMap]
  rfl

end Sign

theorem Listed.shown {uss : List (List Sign)} {vs : List Sign} (h : Listed uss vs) {hole : Bool}
    (hhole : hole = true ↔ uss.getLast? = some []) :
    Sign.shown vs = TokenKind.listed hole (uss.map Sign.shown) := by
  induction h with
  | nil => rfl
  | last hne =>
    obtain rfl : hole = false := by simpa [hne] using hhole
    simp [TokenKind.listed]
  | trailing hne a =>
    obtain rfl : hole = false := by simpa [hne] using hhole
    simp [TokenKind.listed]
  | hole a =>
    obtain rfl : hole = true := by simpa using hhole
    simp [TokenKind.listed]
  | @more us vs uss a h hne ih =>
    have hlast : (us :: uss).getLast? = uss.getLast? := by
      obtain ⟨ws, wss, rfl⟩ := List.exists_cons_of_ne_nil hne
      exact List.getLast?_cons_cons
    rw [hlast] at hhole
    simp [TokenKind.listed, ih hhole, hne]

/-- Where no item is a hole, the last one is none. -/
theorem last_not_hole {uss : List (List Sign)} (hne : ∀ us ∈ uss, us ≠ []) :
    false = true ↔ uss.getLast? = some [] :=
  ⟨nofun, fun hlast => absurd rfl (hne [] (List.mem_of_getLast? hlast))⟩

theorem Listed.shown_clauses {cs : List (Clause α)} {vs : List Sign} {f : α → List TokenKind}
    {hole : Bool} (h : Listed (cs.map (·.signs)) vs)
    (hhole : hole = true ↔ (cs.map (·.signs)).getLast? = some [])
    (hclause : ∀ x ∈ cs, Sign.shown x.signs = f x.value) :
    Sign.shown vs = TokenKind.listed hole ((cs.map (·.value)).map f) := by
  rw [h.shown hhole, List.map_map, List.map_map]
  exact congrArg _ (List.map_congr_left hclause)

theorem Clause.shown_flatMap {cs : List (Clause α)} {f : α → List TokenKind}
    (hclause : ∀ x ∈ cs, Sign.shown x.signs = f x.value) :
    Sign.shown (cs.flatMap (·.signs)) = (cs.map (·.value)).flatMap f := by
  rw [Sign.shown_flatMap, List.flatMap_map]
  exact List.flatMap_congr hclause

namespace Expr

theorem propertiesBack_eq_map (ps : List (Property Expr)) :
    propertiesBack ps = ps.map fun p => p.key.token :: .symbol .colon :: p.value.tokensBack := by
  induction ps with
  | nil => rfl
  | cons p ps ih => rw [propertiesBack, ih, List.map_cons]

theorem elementsBack_eq_map (es : List (Option Expr)) : elementsBack es = es.map elementBack := by
  induction es with
  | nil => rfl
  | cons e es ih => rw [elementsBack, ih, List.map_cons]

theorem argumentsBack_eq_map (as : List (Argument Expr)) :
    argumentsBack as = as.map argumentBack := by
  induction as with
  | nil => rfl
  | cons a as ih => rw [argumentsBack, ih, List.map_cons]

theorem stagesBack_eq_flatMap (ss : List (Stage Expr)) :
    stagesBack ss = ss.flatMap fun s =>
      .symbol (if s.optional then .pipeQuestion else .pipe) :: s.body.tokensBack := by
  induction ss with
  | nil => rfl
  | cons s ss ih => rw [stagesBack, ih, List.flatMap_cons]

theorem declarationsBack_eq_flatMap (ds : List (Declaration Expr)) :
    declarationsBack ds = ds.flatMap fun d =>
      .identifier d.name.text :: .symbol .equal :: d.init.tokensBack ++ [.symbol .comma] := by
  induction ds with
  | nil => rfl
  | cons d ds ih => rw [declarationsBack, ih, List.flatMap_cons]; simp

theorem tokensBack_node (op : InfixOp) (span : Span) (left right : Expr) :
    (op.node span left right).tokensBack = left.tokensBack ++ op.token :: right.tokensBack := by
  cases op <;> rfl

end Expr

/-- An identifier that is not a keyword. -/
def TokenKind.Plain (k : TokenKind) : Prop :=
  ∀ name, k = .identifier name → Keyword.ofText? name = none

theorem TokenKind.Names.eq_ofName {k : TokenKind} {name : String} (h : k.Names name)
    (hk : k.Plain) : k = .ofName name := by
  cases h with
  | identifier => rw [ofName, hk name rfl]
  | keyword k => rw [ofName, k.ofText?_text]

theorem Key.IsWritten.eq_token {kind : TokenKind} {key : Key} (h : key.IsWritten kind)
    (hkind : kind.Plain) : kind = key.token := by
  cases key with
  | name n => exact TokenKind.Names.eq_ofName h hkind
  | literal l span => exact h

namespace Clause

open Sign (shown)

theorem IsProperty.shown {x : Clause (Property Expr)} (h : x.IsProperty)
    (hplain : ∀ u ∈ x.signs, u.token.kind.Plain) :
    shown x.signs = x.value.key.token :: .symbol .colon :: shown x.body := by
  obtain ⟨kind, a, hkey, hbefore, hafter, -⟩ := h
  have hkind := hkey.eq_token (hplain (.part kind x.value.key.span) (by simp [signs, hbefore]))
  simp [signs, hbefore, hafter, hkind]

theorem IsElement.shown {x : Clause (Option Expr)} (h : x.IsElement)
    (hbody : ∀ e, x.value = some e → shown x.body = e.tokensBack) :
    shown x.signs = Expr.elementBack x.value := by
  obtain ⟨hbefore, hafter, hhole⟩ := h
  rcases hx : x.value with _ | e
  · simp [signs, hbefore, hafter, hhole hx, Expr.elementBack]
  · simp [signs, hbefore, hafter, hbody e hx, Expr.elementBack]

theorem IsElement.isNone_iff {x : Clause (Option Expr)} (h : x.IsElement)
    (hbody : ∀ e, x.value = some e → Spells x.body e) : x.value.isNone = true ↔ x.signs = [] := by
  obtain ⟨hbefore, hafter, hhole⟩ := h
  rcases hx : x.value with _ | e
  · simp [signs, hbefore, hafter, hhole hx]
  · simp [signs, hbefore, hafter, (hbody e hx).ne_nil]

theorem IsArgument.shown {x : Clause (Argument Expr)} (h : x.IsArgument)
    (hbody : ∀ e, x.value = .value e → shown x.body = e.tokensBack) :
    shown x.signs = Expr.argumentBack x.value := by
  unfold IsArgument at h
  rcases hx : x.value with e | span <;> rw [hx] at h
  · simp [signs, h.1, h.2, hbody e hx, Expr.argumentBack]
  · simp [signs, h.1, h.2, Expr.argumentBack]

theorem IsStage.shown {x : Clause (Stage Expr)} (h : x.IsStage) :
    shown x.signs = .symbol (if x.value.optional then .pipeQuestion else .pipe) ::
      shown x.body := by
  obtain ⟨a, hbefore, hafter⟩ := h
  simp [signs, hbefore, hafter]

theorem IsDeclaration.shown {x : Clause (Declaration Expr)} (h : x.IsDeclaration) :
    shown x.signs = .identifier x.value.name.text :: .symbol .equal :: shown x.body ++
      [.symbol .comma] := by
  obtain ⟨a, b, hbefore, hafter, -⟩ := h
  simp [signs, hbefore, hafter, Name.sign]

end Clause

theorem Parameters.shown {us : List Sign} {ns : List Name} (h : Parameters us ns) :
    Sign.shown us = Expr.parametersBack ns := by
  cases h with
  | bare n => rfl
  | single n a b => rfl
  | @several ns vs a b hlength h hparts =>
    have hlisted :
        Sign.shown vs = TokenKind.listed false (ns.map fun n => [.identifier n.text]) := by
      rw [h.shown (last_not_hole (by simp)), List.map_map]
      rfl
    have hback : Expr.parametersBack ns =
        .symbol .leftParen :: TokenKind.listed false (ns.map fun n => [.identifier n.text]) ++
          [.symbol .rightParen] := by
      rw [Expr.parametersBack]
      rintro n rfl
      exact hlength rfl
    simp [hback, hlisted]

/-- A tree shows all tokens that it is spelled with, those apart that have another use. -/
theorem Spells.shown {us : List Sign} {e : Expr} (h : Spells us e)
    (hplain : ∀ u ∈ us, u.token.kind.Plain) : Sign.shown us = e.tokensBack := by
  induction h with
  | literal span l => rfl
  | identifier span name => rfl
  | topic span => rfl
  | group a b h ih =>
    simpa using ih fun u hu => hplain u (by simp [hu])
  | unary op a h hspan ih =>
    simp [Expr.tokensBack, ih fun u hu => hplain u (by simp [hu])]
  | infixed op a hleft hright hspan ihleft ihright =>
    simp [Expr.tokensBack_node, ihleft fun u hu => hplain u (by simp [hu]),
      ihright fun u hu => hplain u (by simp [hu])]
  | conditional a b htest hconsequent hspan ihtest ihconsequent =>
    simp [Expr.tokensBack, Expr.alternateBack, ihtest fun u hu => hplain u (by simp [hu]),
      ihconsequent fun u hu => hplain u (by simp [hu])]
  | conditionalElse a b c htest hconsequent halternate hspan ihtest ihconsequent ihalternate =>
    simp [Expr.tokensBack, Expr.alternateBack, ihtest fun u hu => hplain u (by simp [hu]),
      ihconsequent fun u hu => hplain u (by simp [hu]),
      ihalternate fun u hu => hplain u (by simp [hu])]
  | @object cs vs span a b hvalues hforms hlisted hspan ih =>
    have hclause : ∀ x ∈ cs, Sign.shown x.signs =
        x.value.key.token :: .symbol .colon :: x.value.value.tokensBack := fun x hx => by
      have hsigns : ∀ u ∈ x.signs, u.token.kind.Plain := fun u hu =>
        hplain u (by simp [hlisted.mem (List.mem_map_of_mem hx) hu])
      rw [(hforms x hx).shown hsigns, ih x hx fun u hu => hsigns u (Clause.mem_signs hu)]
    have hhole := last_not_hole (List.forall_mem_map.2 fun x hx => (hforms x hx).signs_ne_nil)
    have hitems : Sign.shown vs =
        TokenKind.listed false (Expr.propertiesBack (cs.map (·.value))) := by
      rw [Expr.propertiesBack_eq_map]
      exact hlisted.shown_clauses hhole hclause
    simp [Expr.tokensBack, hitems]
  | @array cs vs span a b hvalues hforms hlisted hspan ih =>
    have hclause : ∀ x ∈ cs, Sign.shown x.signs = Expr.elementBack x.value := fun x hx =>
      (hforms x hx).shown fun e he => ih x hx e he fun u hu => hplain u
        (by simp [hlisted.mem (List.mem_map_of_mem hx) (Clause.mem_signs hu)])
    -- The comma behind the last element shows just if that is a hole.
    have hhole : (cs.map (·.value)).getLast?.any (·.isNone) = true ↔
        (cs.map (·.signs)).getLast? = some [] := by
      rw [List.getLast?_map, List.getLast?_map]
      cases hlast : cs.getLast? with
      | none => simp
      | some x =>
        have hx := List.mem_of_getLast? hlast
        simpa using (hforms x hx).isNone_iff (hvalues x hx)
    simp [Expr.tokensBack, Expr.elementsBack_eq_map, hlisted.shown_clauses hhole hclause]
  | @access us target span kind name extended a b htarget hname hspan ih =>
    have hkind := hname.eq_ofName (hplain (.part kind b) (by simp))
    simp [Expr.tokensBack, Expr.nameToken, ih fun u hu => hplain u (by simp [hu]), hkind]
  | lookup a b htarget hkey hspan ihtarget ihkey =>
    simp [Expr.tokensBack, ihtarget fun u hu => hplain u (by simp [hu]),
      ihkey fun u hu => hplain u (by simp [hu])]
  | @call us vs callee cs span a b hcallee hvalues hforms hlisted hspan ihcallee ih =>
    have hclause : ∀ x ∈ cs, Sign.shown x.signs = Expr.argumentBack x.value := fun x hx =>
      (hforms x hx).shown fun e he => ih x hx e he fun u hu => hplain u
        (by simp [hlisted.mem (List.mem_map_of_mem hx) (Clause.mem_signs hu)])
    have hhole := last_not_hole (List.forall_mem_map.2 fun x hx =>
      (hforms x hx).signs_ne_nil (hvalues x hx))
    simp [Expr.tokensBack, Expr.argumentsBack_eq_map, hlisted.shown_clauses hhole hclause,
      ihcallee fun u hu => hplain u (by simp [hu])]
  | @pipe us head cs span hhead hvalues hforms hspan ihhead ih =>
    have hstages : Sign.shown (cs.flatMap (·.signs)) = Expr.stagesBack (cs.map (·.value)) := by
      rw [Expr.stagesBack_eq_flatMap]
      refine Clause.shown_flatMap fun x hx => ?_
      rw [(hforms x hx).shown, ih x hx fun u hu => hplain u ?_]
      exact List.mem_append_right _ (List.mem_flatMap.2 ⟨x, hx, Clause.mem_signs hu⟩)
    simp [Expr.tokensBack, hstages, ihhead fun u hu => hplain u (by simp [hu])]
  | @lambda us vs parameters body span a hparameters hbody hspan ih =>
    simp [Expr.tokensBack, hparameters.shown, ih fun u hu => hplain u (by simp [hu])]
  | @letIn us cs body span a hvalues hforms hbody hspan ih ihbody =>
    have hdeclarations : Sign.shown (cs.flatMap (·.signs)) =
        Expr.declarationsBack (cs.map (·.value)) := by
      rw [Expr.declarationsBack_eq_flatMap]
      refine Clause.shown_flatMap fun x hx => ?_
      have hmem : ∀ u ∈ x.body, u ∈ cs.flatMap (·.signs) := fun u hu =>
        List.mem_flatMap.2 ⟨x, hx, Clause.mem_signs hu⟩
      rw [(hforms x hx).shown, ih x hx fun u hu => hplain u (by simp [hmem u hu])]
    simp [Expr.tokensBack, hdeclarations, ihbody fun u hu => hplain u (by simp [hu])]

namespace Lexer

theorem plain_scanToken {p : Position} {c : Char} {cs : List Char} {s : Scanned}
    (h : scanToken p c cs = some s) : s.kind.Plain := by
  unfold scanToken at h
  split at h
  · cases h
    exact fun _ => TokenKind.noConfusion
  split at h
  · cases h
    exact fun _ => TokenKind.noConfusion
  split at h
  · cases h
    simp only [scanWord, wordKind]
    split
    · exact fun _ => TokenKind.noConfusion
    · rintro _ ⟨⟩
      assumption
  · obtain ⟨s, -, rfl⟩ := Option.map_eq_some_iff.1 h
    exact fun _ => TokenKind.noConfusion

theorem plain_of_mem_lex {text : String} {t : Token} (ht : t ∈ (lex text).tokens) :
    t.kind.Plain := by
  obtain ⟨gap, xs, rest, -, htokens, hxs⟩ := exists_pieces ErrorLog.limit .start text.toList
  have hkind : t.kind ∈ xs.map (·.kind) ++ [.endOfInput] := by
    rw [← Piece.map_kind_tokens (Position.start.advanceBy gap), ← htokens]
    exact List.mem_map_of_mem ht
  rcases List.mem_append.1 hkind with hkind | hkind
  · obtain ⟨x, hx, hkind⟩ := List.mem_map.1 hkind
    obtain ⟨findings, p, c, cs, rest, -, hs⟩ := hxs x hx
    exact hkind ▸ plain_scanToken hs
  · rw [List.mem_singleton.1 hkind]
    exact fun _ => TokenKind.noConfusion

end Lexer

/-- The tokens of a text that is parsed spell its tree, up to the end of input, and read from left
to right the tree gives back all that show in it. The others are pairs of parentheses around an
expression or around the only parameter of a lambda, and commas behind the last argument, property
or element. -/
theorem parse_keeps_tokens {text : String} {e : Expr} (h : Expr.parse text = .ok e) :
    ∃ us last, (lex text).tokens = us.map (·.token) ++ [last] ∧ last.kind = .endOfInput ∧
      Spells us e ∧ Sign.shown us = e.tokensBack := by
  obtain ⟨us, last, htokens, hlast, -, hspells⟩ := Expr.spells_of_parse h
  refine ⟨us, last, htokens, hlast, hspells, hspells.shown fun u hu => ?_⟩
  have hmem : u.token ∈ (lex text).tokens := by
    rw [htokens]
    exact List.mem_append_left _ (List.mem_map_of_mem hu)
  exact Lexer.plain_of_mem_lex hmem

/-- A text with all that leaves no trace, and with holes and a keyword as a name. -/
theorem parse_keeps_tokens_optional :
    let text := "((x) => \x7ba: (x),\x7d)([x, , ,], #,) |? %.if"
    let shown : List TokenKind := [.identifier "x", .symbol .arrow, .symbol .leftBrace,
      .identifier "a", .symbol .colon, .identifier "x", .symbol .rightBrace, .symbol .leftParen,
      .symbol .leftBracket, .identifier "x", .symbol .comma, .symbol .comma, .symbol .comma,
      .symbol .rightBracket, .symbol .comma, .symbol .hash, .symbol .rightParen,
      .symbol .pipeQuestion, .symbol .percent, .symbol .dot, .keyword .if_]
    ∃ e, Expr.parse text = .ok e ∧ e.tokensBack = shown ∧
      ∃ us last, (lex text).tokens = us.map (·.token) ++ [last] ∧ last.kind = .endOfInput ∧
        Spells us e ∧ Sign.shown us = e.tokensBack := by
  intro text shown
  have hback : (Expr.parse text).toOption.map Expr.tokensBack = some shown := by decide +kernel
  rcases hparse : Expr.parse text with log | e <;> rw [hparse] at hback
  · cases hback
  · exact ⟨e, rfl, Option.some.inj hback, parse_keeps_tokens hparse⟩

end ExprLang
