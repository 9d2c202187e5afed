import ExprLang.Proofs.Parsing.Answers
import ExprLang.Proofs.Parsing.Lists

/-!
The header of a lambda: its parameters up to the arrow. At an opening parenthesis the parser looks
ahead for one before it reads it. What is read may have a comma behind the last parameter; what is
looked for may not, and this is all they differ in.
-/
namespace ExprLang

open TokenKind (front)

variable {α β : Type}

namespace TokenKind

/-- The kinds behind the opening parenthesis of a header, with any after them. The flag tells
whether a comma stands behind the last parameter. -/
inductive IsHeader : Bool → List TokenKind → Prop
  | empty (more : List TokenKind) :
    IsHeader false (.symbol .rightParen :: .symbol .arrow :: more)
  | last (name : String) (more : List TokenKind) :
    IsHeader false (.identifier name :: .symbol .rightParen :: .symbol .arrow :: more)
  | trailing (name : String) (more : List TokenKind) :
    IsHeader true
      (.identifier name :: .symbol .comma :: .symbol .rightParen :: .symbol .arrow :: more)
  | cons {trailing : Bool} {next : String} {ks : List TokenKind} (name : String)
    (h : IsHeader trailing (.identifier next :: ks)) :
    IsHeader trailing (.identifier name :: .symbol .comma :: .identifier next :: ks)

/-- The end of a header, from the closing parenthesis on. -/
def EndsHeader (ks : List TokenKind) : Prop :=
  ∃ more, ks = .symbol .rightParen :: .symbol .arrow :: more

def StartsHeader (ks : List TokenKind) : Prop := ∃ trailing, IsHeader trailing ks

variable {ks : List TokenKind} {name : String}

/-- No kinds are a header of both sorts. -/
theorem IsHeader.not_trailing (h : IsHeader false ks) : ¬ IsHeader true ks := by
  intro h'
  generalize hflag : false = flag at h
  induction h with
  | empty => cases h'
  | last => cases h'
  | trailing => cases hflag
  | cons _ _ ih =>
    cases h' with
    | cons _ h' => exact ih h' hflag

/-- Both sorts are one where no comma stands behind the last parameter. -/
theorem isHeader_false_iff_startsHeader :
    (IsHeader false ks ↔ StartsHeader ks) ↔ ¬ IsHeader true ks := by
  constructor
  · intro h htrailing
    exact (h.2 ⟨true, htrailing⟩).not_trailing htrailing
  · intro h
    refine ⟨fun hplain => ⟨false, hplain⟩, ?_⟩
    rintro ⟨flag, hflag⟩
    cases flag with
    | false => exact hflag
    | true => exact absurd hflag h

theorem EndsHeader.front_eq (h : EndsHeader ks) : front ks = .symbol .rightParen := by
  obtain ⟨more, rfl⟩ := h
  rfl

theorem endsHeader_rightParen :
    EndsHeader (.symbol .rightParen :: ks) ↔ front ks = .symbol .arrow := by
  constructor
  · rintro ⟨more, hmore⟩
    exact (List.cons.inj hmore).2 ▸ rfl
  · intro h
    obtain ⟨more, rfl⟩ := exists_cons_of_front h TokenKind.noConfusion
    exact ⟨more, rfl⟩

theorem startsHeader_rightParen :
    StartsHeader (.symbol .rightParen :: ks) ↔ EndsHeader (.symbol .rightParen :: ks) := by
  constructor
  · rintro ⟨_, ⟨⟩⟩
    exact ⟨_, rfl⟩
  · rintro ⟨more, hmore⟩
    exact ⟨false, hmore ▸ .empty more⟩

theorem startsHeader_comma :
    StartsHeader (.identifier name :: .symbol .comma :: ks) ↔ StartsHeader ks := by
  constructor
  · rintro ⟨flag, h⟩
    cases h with
    | trailing => exact ⟨false, .empty _⟩
    | cons _ h => exact ⟨flag, h⟩
  · rintro ⟨flag, h⟩
    cases h with
    | empty more => exact ⟨true, .trailing name more⟩
    | last next more => exact ⟨false, .cons name (.last next more)⟩
    | trailing next more => exact ⟨true, .cons name (.trailing next more)⟩
    | cons next h => exact ⟨flag, .cons name (.cons next h)⟩

theorem startsHeader_identifier (h : front ks ≠ .symbol .comma) :
    StartsHeader (.identifier name :: ks) ↔ EndsHeader ks := by
  constructor
  · rintro ⟨_, hheader⟩
    cases hheader with
    | last _ more => exact ⟨more, rfl⟩
    | _ => exact absurd rfl h
  · rintro ⟨more, rfl⟩
    exact ⟨false, .last name more⟩

theorem StartsHeader.front_eq (h : StartsHeader ks) :
    front ks = .symbol .rightParen ∨ ∃ name, front ks = .identifier name := by
  obtain ⟨_, h⟩ := h
  cases h with
  | empty => exact .inl rfl
  | _ => exact .inr ⟨_, rfl⟩

end TokenKind

open TokenKind (IsHeader StartsHeader EndsHeader)

namespace Expr

variable {ks : List TokenKind}

theorem closesParameters_iff : closesParameters ks = true ↔ EndsHeader ks := by
  constructor
  · intro h
    unfold closesParameters at h
    split at h
    · exact ⟨_, rfl⟩
    · cases h
  · rintro ⟨more, rfl⟩
    rfl

theorem isHeader_of_namesParameters (h : namesParameters ks = true) :
    IsHeader false ks ∧ ∃ name ks', ks = .identifier name :: ks' := by
  fun_induction namesParameters ks with
  | case1 name ks ih =>
    obtain ⟨hheader, next, ks', rfl⟩ := ih h
    exact ⟨.cons name hheader, name, _, rfl⟩
  | case2 name ks =>
    obtain ⟨more, rfl⟩ := closesParameters_iff.1 h
    exact ⟨.last name more, name, _, rfl⟩
  | case3 => cases h

/-- What is looked for has no comma behind the last parameter. -/
theorem isParameters_iff : isParameters ks = true ↔ IsHeader false ks := by
  rw [isParameters, Bool.or_eq_true]
  constructor
  · rintro (h | h)
    · obtain ⟨more, rfl⟩ := closesParameters_iff.1 h
      exact .empty more
    · exact (isHeader_of_namesParameters h).1
  · intro h
    generalize hflag : false = flag at h
    induction h with
    | empty => exact .inl rfl
    | last => exact .inr rfl
    | trailing => cases hflag
    | cons _ _ ih => exact .inr ((ih hflag).resolve_left Bool.false_ne_true)

end Expr

namespace Walk

open Walker (Faces)

/-- The parameters of a lambda and the arrow behind them. -/
def header : Walk (List Name) := do
  let names ← parameters
  expect (.symbol .arrow)
  return names

/-- A lambda is a header and a body. -/
theorem lambda_eq (expression : Walk Expr) : lambda expression = function do
    let start ← peekSpan
    let names ← header
    let body ← expression
    return .lambda (← spanFrom start) names body := by
  simp only [lambda, header, bind_assoc, pure_bind]

variable {w : Walker} {ks : List TokenKind}

/-- Names are read as long as a header can come of them. -/
theorem answers_names (hw : w.Faces ks) :
    Answers (delimited .rightParen expectIdentifier)
      (fun _ w' => ∃ ks', w'.Faces ks' ∧ (StartsHeader ks ↔ front ks' = .symbol .arrow))
      (¬ StartsHeader ks) w := by
  -- With every name and its comma read, what is left starts a header exactly if the whole does.
  refine .bind <| .mono (.loop (Q := fun _ w' => ∃ ks', w'.Faces ks' ∧
    (StartsHeader ks ↔ EndsHeader ks')) (I := fun ks' => StartsHeader ks ↔ StartsHeader ks')
    hw Iff.rfl fun names w₁ ks₁ hw₁ hks₁ => ?_) ?_
  · refine .bind <| .peekKind hw₁ ?_
    split
    next hclose =>
      obtain ⟨more, rfl⟩ := TokenKind.exists_cons_of_front hclose TokenKind.noConfusion
      exact .pure ⟨_, hw₁, hks₁.trans TokenKind.startsHeader_rightParen⟩
    next hclose =>
      refine .bind <| .expectIdentifier hw₁ (fun name span ks₂ w₂ hks₂ hw₂ => ?_) fun hname => ?_
      · refine .bind <| .eat TokenKind.noConfusion hw₂ (fun ks₃ w₃ hks₃ hw₃ => ?_) fun hcomma => ?_
        · have hless : ks₃.length < ks₁.length := by
            rw [hks₂, hks₃, List.length_cons, List.length_cons]
            omega
          subst hks₃ hks₂
          exact .pure ⟨ks₃, hw₃, hks₁.trans TokenKind.startsHeader_comma, hless⟩
        · subst hks₂
          exact .pure ⟨ks₂, hw₂, hks₁.trans (TokenKind.startsHeader_identifier hcomma)⟩
      · intro hheader
        obtain hfront | ⟨name, hfront⟩ := (hks₁.1 hheader).front_eq
        · exact hclose hfront
        · exact hname name hfront
  · rintro names w₁ ⟨ks₁, hw₁, hks₁⟩
    refine .bind <| .expect TokenKind.noConfusion hw₁ (fun ks₂ w₂ hks₂ hw₂ => ?_) fun hclose => ?_
    · exact .pure ⟨ks₂, hw₂, hks₁.trans (hks₂ ▸ TokenKind.endsHeader_rightParen)⟩
    · exact fun hheader => hclose (hks₁.1 hheader).front_eq

/-- A header is read exactly where one starts, whether or not a comma stands behind its last
parameter. -/
theorem answers_header (hw : w.Faces (.symbol .leftParen :: ks)) :
    Answers header (fun _ _ => StartsHeader ks) (¬ StartsHeader ks) w := by
  refine .bind <| .bind <| .eat TokenKind.noConfusion hw (fun ks₁ w₁ hks₁ hw₁ => ?_)
    fun hparen => absurd rfl hparen
  obtain rfl : ks = ks₁ := (List.cons.inj hks₁).2
  refine .mono (answers_names hw₁) ?_
  rintro names w₂ ⟨ks₂, hw₂, hks₂⟩
  refine .bind <| .expect TokenKind.noConfusion hw₂ (fun ks₃ w₃ hks₃ hw₃ => ?_) fun harrow => ?_
  · exact .pure (hks₂.2 (hks₃ ▸ rfl))
  · exact fun hheader => harrow (hks₂.1 hheader)

theorem exists_header (hw : w.Faces (.symbol .leftParen :: ks)) :
    ∃ names? w', header.from? w = some (names?, w') ∧
      (names?.isSome = true ↔ w'.errors = w.errors) ∧
      (names?.isSome = true ↔ StartsHeader ks) := by
  cases answers_header hw with
  | gives names w' walks errors_eq hstarts =>
    exact ⟨some names, w', walks, iff_of_true rfl errors_eq, iff_of_true rfl hstarts⟩
  | fails f w' walks errors_eq hstarts =>
    exact ⟨none, w', walks, by simp [errors_eq], iff_of_false Bool.false_ne_true hstarts⟩

end Walk

theorem Walker.isParameters_iff {w : Walker} {k : TokenKind} {ks : List TokenKind}
    (h : w.ahead = k :: ks) : w.isParameters = true ↔ IsHeader false ks := by
  rw [(Walker.sees_of_ahead h).isParameters, Expr.isParameters_iff]

/-- At an opening parenthesis among any tokens the parameters up to the arrow are read, or an error
is found. They are read whether or not a comma stands behind the last of them, and seen beforehand
if none does; so the two agree but for that comma. -/
theorem lookahead_agrees_iff {ts : List Token} {w : Walker} {ks : List TokenKind}
    (htokens : w.tokens = (Walker.ofTokens ts).tokens)
    (hahead : w.ahead = .symbol .leftParen :: ks) :
    ∃ names? w', Walk.header.from? w = some (names?, w') ∧
      (names?.isSome = true ↔ w'.errors = w.errors) ∧
      (names?.isSome = true ↔ ∃ trailing, IsHeader trailing ks) ∧
      (w.isParameters = true ↔ IsHeader false ks) ∧
      ((w.isParameters = true ↔ names?.isSome = true) ↔ ¬ IsHeader true ks) := by
  have hw : w.Faces (.symbol .leftParen :: ks) := ⟨htokens ▸ Walker.ended_ofTokens ts, hahead⟩
  have hlook := Walker.isParameters_iff hahead
  obtain ⟨names?, w', hwalk, herrors, hread⟩ := Walk.exists_header hw
  refine ⟨names?, w', hwalk, herrors, hread, hlook, ?_⟩
  rw [hlook, hread]
  exact TokenKind.isHeader_false_iff_startsHeader

theorem lookahead_agrees_iff_inside :
    let ts := (lex "f((a, b) => a)").tokens
    let w : Walker := { Walker.ofTokens ts with position := 2, depth := 1 }
    (w.tokens = (Walker.ofTokens ts).tokens ∧ w.ahead = .symbol .leftParen ::
      [.identifier "a", .symbol .comma, .identifier "b", .symbol .rightParen, .symbol .arrow,
        .identifier "a", .symbol .rightParen, .endOfInput]) ∧
    ∃ names? w', Walk.header.from? w = some (names?, w') ∧
      (w.isParameters = true ↔ names?.isSome = true) := by
  intro ts w
  have hahead : w.ahead = .symbol .leftParen ::
      [.identifier "a", .symbol .comma, .identifier "b", .symbol .rightParen, .symbol .arrow,
        .identifier "a", .symbol .rightParen, .endOfInput] := by decide +kernel
  have htokens : w.tokens = (Walker.ofTokens ts).tokens := rfl
  obtain ⟨names?, w', hwalk, -, -, -, hagrees⟩ := lookahead_agrees_iff htokens hahead
  have hplain : ¬ IsHeader true [.identifier "a", .symbol .comma, .identifier "b",
      .symbol .rightParen, .symbol .arrow, .identifier "a", .symbol .rightParen, .endOfInput] :=
    TokenKind.IsHeader.not_trailing (.cons "a" (.last "b" _))
  exact ⟨⟨htokens, hahead⟩, names?, w', hwalk, hagrees.2 hplain⟩

/-- The header of `(a,) => a` can be read, but it is not seen. -/
theorem header_overlooked :
    let w := Walker.ofTokens (lex "(a,) => a").tokens
    ¬ (w.isParameters = true ↔
      ∃ names w', Walk.header.from? w = some (some names, w') ∧ w'.errors = w.errors) := by
  intro w h
  have hw : w.Faces [.symbol .leftParen, .identifier "a", .symbol .comma, .symbol .rightParen,
      .symbol .arrow, .identifier "a", .endOfInput] :=
    ⟨Walker.ended_ofTokens _, by decide +kernel⟩
  have hheader : IsHeader true [.identifier "a", .symbol .comma, .symbol .rightParen,
      .symbol .arrow, .identifier "a", .endOfInput] := .trailing "a" _
  obtain ⟨names?, w', hwalk, herrors, hread⟩ := Walk.exists_header hw
  have hsome := hread.2 ⟨true, hheader⟩
  obtain ⟨names, rfl⟩ := Option.isSome_iff_exists.1 hsome
  have hlook := h.2 ⟨names, w', hwalk, herrors.1 hsome⟩
  exact ((Walker.isParameters_iff hw.ahead_eq).1 hlook).not_trailing hheader

section Refusal

open Parse

variable {m : Parse α} {c : Cursor} {f : Finding} {ks : List TokenKind}

theorem Parse.Reads.bind_error {F : α → Parse β} (h : m.Reads (fun a d => F a d = .error f) c) :
    (m >>= F) c = .error f := by
  obtain ⟨a, d, hm, hF⟩ := h
  change (m c >>= fun r => F r.1 r.2) = _
  rw [hm]
  exact hF

theorem Parse.expect_eq_error {k : TokenKind} (hc : c.Sees ks) (hk : front ks ≠ k) :
    Parse.expect k c = .error ⟨.expectedToken k (front ks), c.token.span⟩ := by
  refine Reads.bind_error (.peekKind hc ?_)
  rw [if_neg hk, ← hc.kind_eq]
  rfl

/-- A name with a comma behind it is an expression. -/
theorem Expr.reads_name {n : Nat} {name : String}
    (hc : c.Sees (.identifier name :: .symbol .comma :: ks)) :
    Reads (parser (n + 1)) (fun _ d => d.Sees (.symbol .comma :: ks)) c := by
  have hprimary : (primary (parser n)).Restores eraseSpans (· = .symbol .comma)
      [.identifier name] (.identifier (.point .start) name) := by
    intro c more hc hmore
    have harrow : front more ≠ .symbol .arrow := hmore ▸ nofun
    exact reads_primary (.identifier name) hc harrow fun span d hd => ⟨rfl, hd⟩
  have hcloses : ∀ k : TokenKind, k = .symbol .comma → k.closes = true := by
    rintro _ rfl
    rfl
  have hexpression : Restores eraseSpans (· = .symbol .comma) (parser (n + 1))
      [.identifier name] (.identifier (.point .start) name) :=
    restores_of_primary hcloses (fun _ => rfl) hprimary
  exact hexpression.reads hc rfl fun _ _ d hd => hd

/-- Where it is not seen the first name is read as an expression in parentheses, and the comma
behind it is an error. -/
theorem Expr.primary_trailing {n : Nat} (hc : c.Sees (.symbol .leftParen :: ks))
    (h : IsHeader true ks) : ∃ span, primary (parser (n + 1)) c =
      .error ⟨.expectedToken (.symbol .rightParen) (.symbol .comma), span⟩ := by
  have hlook : isParameters ks = false :=
    Bool.eq_false_iff.2 fun hlook => (isParameters_iff.1 hlook).not_trailing h
  obtain ⟨name, more, rfl⟩ : ∃ name more, ks = .identifier name :: .symbol .comma :: more := by
    cases h with
    | _ => exact ⟨_, _, rfl⟩
  obtain ⟨c₁, hadvance, hc₁⟩ : ∃ c₁, Parse.advance c = .ok ((), c₁) ∧ c₁.Sees _ :=
    ⟨_, rfl, hc.drop⟩
  obtain ⟨e, c₂, hexpression, hc₂⟩ := reads_name (n := n) hc₁
  -- The span is that of the comma, which is known only once the name is read.
  refine ⟨c₂.token.span, Reads.bind_error (.peek hc fun span => Reads.bind_error (.ahead hc ?_))⟩
  rw [hlook]
  refine Reads.bind_error ⟨(), c₁, hadvance, Reads.bind_error ⟨e, c₂, hexpression, ?_⟩⟩
  have hexpect := Parse.expect_eq_error hc₂ (k := .symbol .rightParen) nofun
  change (Parse.expect (.symbol .rightParen) c₂ >>= fun _ => _) = _
  rw [hexpect]
  rfl

end Refusal

end ExprLang
