import ExprLang.Proofs.Lexing
import ExprLang.Proofs.Parsing.Atoms

/-!
Trees that the concrete syntax can express, and how their tokens begin. What stands in parentheses
never looks like the parameters of a lambda.
-/
namespace ExprLang

open TokenKind (front)

inductive Key.Expressible : Key → Prop
  | name {id : Name} (hid : IsWord id.text) : Expressible (.name id)
  | string {s : String} {span : Span} : Expressible (.literal (.string s) span)
  | number {x : Float} {span : Span} (hx : IsLiteral x) : Expressible (.literal (.number x) span)

namespace Expr

/-- Names are words, where they are not those of properties they are no keywords, and whatever the
syntax asks for at least one of is there. -/
inductive Expressible : Expr → Prop
  | literal {span : Span} {l : Literal} (hl : l.token.Legible) : Expressible (.literal span l)
  | identifier {span : Span} {name : String} (hname : (TokenKind.identifier name).Legible) :
    Expressible (.identifier span name)
  | topic {span : Span} : Expressible (.topic span)
  | unary {span : Span} {op : UnaryOp} {argument : Expr} (hargument : Expressible argument) :
    Expressible (.unary span op argument)
  | binary {span : Span} {op : BinaryOp} {left right : Expr} (hleft : Expressible left)
    (hright : Expressible right) : Expressible (.binary span op left right)
  | logical {span : Span} {op : LogicalOp} {left right : Expr} (hleft : Expressible left)
    (hright : Expressible right) : Expressible (.logical span op left right)
  | coalesce {span : Span} {left right : Expr} (hleft : Expressible left)
    (hright : Expressible right) : Expressible (.coalesce span left right)
  | conditional {span : Span} {test consequent : Expr} {alternate : Option Expr}
    (htest : Expressible test) (hconsequent : Expressible consequent)
    (halternate : ∀ e, alternate = some e → Expressible e) :
    Expressible (.conditional span test consequent alternate)
  | object {span : Span} {ps : List (Property Expr)} (hkeys : ∀ p ∈ ps, p.key.Expressible)
    (hvalues : ∀ p ∈ ps, Expressible p.value) : Expressible (.object span ps)
  | array {span : Span} {es : List (Option Expr)} (hes : ∀ e, some e ∈ es → Expressible e) :
    Expressible (.array span es)
  | access {span span' : Span} {target : Expr} {name : String} {extended : Bool}
    (htarget : Expressible target) (hname : IsWord name) :
    Expressible (.member span target (.identifier span' name) false extended)
  | lookup {span : Span} {target key : Expr} (htarget : Expressible target)
    (hkey : Expressible key) : Expressible (.member span target key true false)
  | call {span : Span} {callee : Expr} {as : List (Argument Expr)} (hcallee : Expressible callee)
    (has : ∀ e, .value e ∈ as → Expressible e) : Expressible (.call span callee as)
  | pipe {span : Span} {head : Expr} {ss : List (Stage Expr)} (hhead : Expressible head)
    (hne : ss ≠ []) (hss : ∀ s ∈ ss, Expressible s.body) : Expressible (.pipe span head ss)
  | lambda {span : Span} {ps : List Name} {body : Expr}
    (hps : ∀ p ∈ ps, (TokenKind.identifier p.text).Legible) (hbody : Expressible body) :
    Expressible (.lambda span ps body)
  | letIn {span : Span} {ds : List (Declaration Expr)} {body : Expr} (hne : ds ≠ [])
    (hnames : ∀ d ∈ ds, (TokenKind.identifier d.name.text).Legible)
    (hinits : ∀ d ∈ ds, Expressible d.init) (hbody : Expressible body) :
    Expressible (.letIn span ds body)

end Expr

namespace Expr

variable {s : Style}

def operandTokens (s : Style) (e : Expr) : List TokenKind := s.operand e (e.tokens s)

def itemTokens (s : Style) (e : Expr) : List TokenKind := s.item e (e.tokens s)

end Expr

def Property.tokens (s : Style) (p : Property Expr) : List TokenKind :=
  p.key.token :: .symbol .colon :: p.value.itemTokens s

def Stage.token (st : Stage Expr) : TokenKind :=
  .symbol (if st.optional then .pipeQuestion else .pipe)

def Stage.tokens (s : Style) (st : Stage Expr) : List TokenKind :=
  st.token :: st.body.operandTokens s

def Declaration.tokens (s : Style) (d : Declaration Expr) : List TokenKind :=
  .identifier d.name.text :: .symbol .equal :: (d.init.itemTokens s ++ [.symbol .comma])

namespace Expr

section Lists

variable (s : Style)

theorem propertiesTokens_eq_map (ps : List (Property Expr)) :
    propertiesTokens s ps = ps.map (·.tokens s) := by
  induction ps with
  | nil => rfl
  | cons p ps ih => rw [propertiesTokens, ih, List.map_cons, Property.tokens, itemTokens]

theorem elementsTokens_eq_flatMap (es : List (Option Expr)) :
    elementsTokens s es = es.flatMap fun e => elementTokens s e ++ [.symbol .comma] := by
  induction es with
  | nil => rfl
  | cons e es ih => simp [elementsTokens, ih]

theorem argumentsTokens_eq_map (as : List (Argument Expr)) :
    argumentsTokens s as = as.map (argumentTokens s) := by
  induction as with
  | nil => rfl
  | cons a as ih => rw [argumentsTokens, ih, List.map_cons]

theorem stagesTokens_eq_flatMap (ss : List (Stage Expr)) :
    stagesTokens s ss = ss.flatMap (·.tokens s) := by
  induction ss with
  | nil => rfl
  | cons st ss ih =>
    rw [stagesTokens, ih, List.flatMap_cons, Stage.tokens, Stage.token, operandTokens]

theorem declarationsTokens_eq_flatMap (ds : List (Declaration Expr)) :
    declarationsTokens s ds = ds.flatMap (·.tokens s) := by
  induction ds with
  | nil => rfl
  | cons d ds ih => simp [declarationsTokens, ih, Declaration.tokens, itemTokens]

end Lists

end Expr

section Legible

variable {s : Style}

theorem TokenKind.legible_listed {trailing : Bool} {items : List (List TokenKind)}
    (h : ∀ item ∈ items, ∀ k ∈ item, k.Legible) : ∀ k ∈ listed trailing items, k.Legible := by
  induction items with
  | nil => exact List.forall_mem_nil _
  | cons item items ih =>
    obtain ⟨hitem, hitems⟩ := List.forall_mem_cons.1 h
    rw [listed, List.forall_mem_append]
    refine ⟨hitem, ?_⟩
    split
    · exact List.forall_mem_nil _
    · exact List.forall_mem_cons.2 ⟨trivial, ih hitems⟩

theorem UnaryOp.legible_token (op : UnaryOp) : op.token.Legible := by
  cases op <;> trivial

theorem BinaryOp.legible_token (op : BinaryOp) : op.token.Legible := by
  cases op <;> trivial

theorem LogicalOp.legible_token (op : LogicalOp) : op.token.Legible := by
  cases op <;> trivial

theorem Key.Expressible.legible_token {key : Key} (h : key.Expressible) : key.token.Legible := by
  cases h with
  | name hid => exact TokenKind.legible_ofName hid
  | string => trivial
  | number hx => exact hx

theorem TokenKind.ofName_eq (name : String) :
    ofName name = .identifier name ∨ ∃ k, ofName name = .keyword k ∧ k.text = name := by
  unfold ofName
  cases hk : Keyword.ofText? name with
  | none => exact .inl rfl
  | some k =>
    unfold Keyword.ofText? at hk
    have htext := List.find?_some hk
    exact .inr ⟨k, rfl, eq_of_beq htext⟩

theorem Key.Expressible.token_ne_symbol {key : Key} (h : key.Expressible) (b : Symbol) :
    key.token ≠ .symbol b := by
  cases h with
  | @name id =>
    have htoken : (Key.name id).token = .ofName id.text := rfl
    rw [htoken]
    rcases TokenKind.ofName_eq id.text with hname | ⟨k, hname, -⟩ <;> rw [hname] <;> exact nofun
  | string => exact nofun
  | number => exact nofun

theorem Style.parameters_eq (s : Style) (ps : List Name) :
    (∃ p, ps = [p] ∧ s.parameters ps = [.identifier p.text]) ∨
      s.parameters ps = .symbol .leftParen ::
        TokenKind.listed false (ps.map fun p => [.identifier p.text]) ++ [.symbol .rightParen] := by
  unfold Style.parameters
  split
  · exact .inl ⟨_, rfl, rfl⟩
  · exact .inr rfl

theorem Style.legible_parameters {ps : List Name}
    (h : ∀ p ∈ ps, (TokenKind.identifier p.text).Legible) : ∀ k ∈ s.parameters ps, k.Legible := by
  rcases s.parameters_eq ps with ⟨p, rfl, hps⟩ | hps
  · rw [hps]
    exact List.forall_mem_singleton.2 (h p (List.mem_singleton.2 rfl))
  · rw [hps]
    refine List.forall_mem_append.2 ⟨List.forall_mem_cons.2 ⟨trivial, ?_⟩,
      List.forall_mem_singleton.2 trivial⟩
    exact TokenKind.legible_listed
      (List.forall_mem_map.2 fun p hp => List.forall_mem_singleton.2 (h p hp))

namespace Expr

theorem legible_parenthesized (wrapped : Bool) {ks : List TokenKind}
    (h : ∀ k ∈ ks, k.Legible) : ∀ k ∈ TokenKind.parenthesized wrapped ks, k.Legible := by
  unfold TokenKind.parenthesized
  split
  · have hopen : ∀ k ∈ TokenKind.symbol .leftParen :: ks, k.Legible :=
      List.forall_mem_cons.2 ⟨trivial, h⟩
    exact List.forall_mem_append.2 ⟨hopen, List.forall_mem_singleton.2 trivial⟩
  · exact h

theorem legible_operandTokens {e : Expr} (h : ∀ k ∈ e.tokens s, k.Legible) :
    ∀ k ∈ e.operandTokens s, k.Legible :=
  legible_parenthesized _ h

theorem legible_itemTokens {e : Expr} (h : ∀ k ∈ e.tokens s, k.Legible) :
    ∀ k ∈ e.itemTokens s, k.Legible :=
  legible_parenthesized _ h

/-- Two operands with a token between them. -/
theorem legible_between {left right : Expr} {k : TokenKind} (hk : k.Legible)
    (hleft : ∀ k ∈ left.tokens s, k.Legible) (hright : ∀ k ∈ right.tokens s, k.Legible) :
    ∀ k' ∈ left.operandTokens s ++ k :: right.operandTokens s, k'.Legible :=
  List.forall_mem_append.2
    ⟨legible_operandTokens hleft, List.forall_mem_cons.2 ⟨hk, legible_operandTokens hright⟩⟩

theorem legible_enclosed {left right : TokenKind} {ks : List TokenKind} (hleft : left.Legible)
    (hright : right.Legible) (h : ∀ k ∈ ks, k.Legible) : ∀ k ∈ left :: ks ++ [right], k.Legible :=
  List.forall_mem_append.2
    ⟨List.forall_mem_cons.2 ⟨hleft, h⟩, List.forall_mem_singleton.2 hright⟩

theorem Expressible.legible_tokens {t : Expr} (h : t.Expressible) :
    ∀ k ∈ t.tokens s, k.Legible := by
  induction h with
  | literal hl => exact List.forall_mem_singleton.2 hl
  | identifier hname => exact List.forall_mem_singleton.2 hname
  | topic => exact List.forall_mem_singleton.2 trivial
  | unary _ ih => exact List.forall_mem_cons.2 ⟨UnaryOp.legible_token _, legible_operandTokens ih⟩
  | binary _ _ ihleft ihright => exact legible_between (BinaryOp.legible_token _) ihleft ihright
  | logical _ _ ihleft ihright => exact legible_between (LogicalOp.legible_token _) ihleft ihright
  | coalesce _ _ ihleft ihright =>
    exact legible_between (k := .symbol .questionQuestion) trivial ihleft ihright
  | @conditional span test consequent alternate _ _ _ ihtest ihconsequent ihalternate =>
    have halternate : ∀ k ∈ alternateTokens s alternate, k.Legible := by
      cases alternate with
      | none => exact List.forall_mem_nil _
      | some e => exact List.forall_mem_cons.2 ⟨trivial, legible_itemTokens (ihalternate e rfl)⟩
    have hconsequent : ∀ k ∈ TokenKind.keyword .then_ :: consequent.operandTokens s, k.Legible :=
      List.forall_mem_cons.2 ⟨trivial, legible_operandTokens ihconsequent⟩
    have htest : ∀ k ∈ TokenKind.keyword .if_ :: test.itemTokens s, k.Legible :=
      List.forall_mem_cons.2 ⟨trivial, legible_itemTokens ihtest⟩
    rw [tokens, List.forall_mem_append, List.forall_mem_append]
    exact ⟨⟨htest, hconsequent⟩, halternate⟩
  | @object span ps hkeys _ ih =>
    have hitems : ∀ item ∈ propertiesTokens s ps, ∀ k ∈ item, k.Legible := by
      rw [propertiesTokens_eq_map, List.forall_mem_map]
      intro p hp
      have hvalue : ∀ k ∈ p.value.itemTokens s, k.Legible := legible_itemTokens (ih p hp)
      exact List.forall_mem_cons.2
        ⟨(hkeys p hp).legible_token, List.forall_mem_cons.2 ⟨trivial, hvalue⟩⟩
    exact legible_enclosed trivial trivial (TokenKind.legible_listed hitems)
  | @array span es _ ih =>
    have hitems : ∀ k ∈ elementsTokens s es, k.Legible := by
      rw [elementsTokens_eq_flatMap]
      refine List.forall_mem_flatMap.2 fun e he => List.forall_mem_append.2
        ⟨?_, List.forall_mem_singleton.2 trivial⟩
      cases e with
      | none => exact List.forall_mem_nil _
      | some e => exact legible_itemTokens (ih e he)
    exact legible_enclosed trivial trivial hitems
  | @access span span' target name extended _ hname ih =>
    have hsymbol : ∀ b : Bool, (TokenKind.symbol (if b then .colonColon else .dot)).Legible :=
      fun _ => trivial
    exact List.forall_mem_append.2 ⟨legible_operandTokens ih, List.forall_mem_cons.2
      ⟨hsymbol extended, List.forall_mem_singleton.2 (TokenKind.legible_ofName hname)⟩⟩
  | lookup _ _ ihtarget ihkey =>
    exact List.forall_mem_append.2
      ⟨legible_operandTokens ihtarget,
        legible_enclosed trivial trivial (legible_itemTokens ihkey)⟩
  | @call span callee as _ _ ihcallee ih =>
    have hitems : ∀ item ∈ argumentsTokens s as, ∀ k ∈ item, k.Legible := by
      rw [argumentsTokens_eq_map, List.forall_mem_map]
      intro a ha
      cases a with
      | value e => exact legible_itemTokens (ih e ha)
      | placeholder span => exact List.forall_mem_singleton.2 trivial
    exact List.forall_mem_append.2 ⟨legible_operandTokens ihcallee,
      legible_enclosed trivial trivial (TokenKind.legible_listed hitems)⟩
  | @pipe span head ss _ _ _ ihhead ih =>
    have hstages : ∀ k ∈ stagesTokens s ss, k.Legible := by
      rw [stagesTokens_eq_flatMap]
      exact List.forall_mem_flatMap.2 fun st hst =>
        List.forall_mem_cons.2 ⟨trivial, legible_operandTokens (ih st hst)⟩
    exact List.forall_mem_append.2 ⟨legible_operandTokens ihhead, hstages⟩
  | lambda hps _ ih =>
    exact List.forall_mem_append.2 ⟨Style.legible_parameters hps,
      List.forall_mem_cons.2 ⟨trivial, legible_itemTokens ih⟩⟩
  | @letIn span ds body _ hnames _ _ ihinits ihbody =>
    have hds : ∀ k ∈ declarationsTokens s ds, k.Legible := by
      rw [declarationsTokens_eq_flatMap]
      refine List.forall_mem_flatMap.2 fun d hd => ?_
      have hinit : ∀ k ∈ d.init.itemTokens s ++ [TokenKind.symbol .comma], k.Legible :=
        List.forall_mem_append.2
          ⟨legible_itemTokens (ihinits d hd), List.forall_mem_singleton.2 trivial⟩
      exact List.forall_mem_cons.2 ⟨hnames d hd, List.forall_mem_cons.2 ⟨trivial, hinit⟩⟩
    exact List.forall_mem_append.2
      ⟨List.forall_mem_cons.2 ⟨trivial, hds⟩, legible_itemTokens ihbody⟩

end Expr

end Legible

/-- What the tokens of an operand are: one token stands alone, and all else stands in brackets. -/
inductive Opens : List TokenKind → Prop
  | atom (a : Atom) : Opens [a.token]
  | bracket {b : Symbol} (hb : b ∈ [.leftParen, .leftBracket, .leftBrace]) (ks : List TokenKind) :
    Opens (.symbol b :: ks)

/-- A style that puts all operands but the plain ones in parentheses. -/
def Style.Safe (s : Style) : Prop := ∀ e : Expr, e.isPlain = false → s.wraps e = true

theorem Style.Safe.opens {s : Style} (hs : s.Safe) (e : Expr) : Opens (e.operandTokens s) := by
  unfold Expr.operandTokens Style.operand TokenKind.parenthesized
  split
  · exact .bracket (by decide) _
  · rename_i hwraps
    cases e with
    | literal span l => exact .atom (.literal l)
    | identifier span name => exact .atom (.identifier name)
    | topic span => exact .atom .topic
    | object span ps => exact .bracket (by decide) _
    | array span es => exact .bracket (by decide) _
    | _ => exact absurd (hs _ rfl) hwraps

namespace TokenKind

/-- Whether an operand without prefix operators can begin with the token. -/
def begins : TokenKind → Bool
  | .number _ | .string _ | .identifier _ | .keyword .true | .keyword .false | .keyword .null
  | .symbol .percent | .symbol .leftParen | .symbol .leftBracket | .symbol .leftBrace => true
  | _ => false

/-- Whether an expression can begin with the token. -/
def starts (k : TokenKind) : Bool :=
  k.begins || (UnaryOp.ofToken? k).isSome || k = .keyword .if_ || k = .keyword .let_

theorem starts_of_begins {k : TokenKind} (h : k.begins = true) : k.starts = true := by
  rw [starts, h]
  rfl

end TokenKind

theorem Opens.begins {ks : List TokenKind} (h : Opens ks) (more : List TokenKind) :
    (front (ks ++ more)).begins = true := by
  cases h with
  | atom a => rcases a with (_ | _ | ⟨⟨⟩⟩ | _) | _ | _ <;> rfl
  | bracket hb ks =>
    simp only [List.mem_cons, List.not_mem_nil, or_false] at hb
    rcases hb with rfl | rfl | rfl <;> rfl

/-- How tokens begin that are those of an expression and what follows it: a name at the front is the
whole expression or goes on with a token that belongs to the expression. -/
structure Starts (ks more : List TokenKind) : Prop where
  starts : (front ks).starts = true
  after_name : ∀ name ks', ks = .identifier name :: ks' → ks' = more ∨
    front ks' ∉ [.symbol .comma, .symbol .rightParen, .symbol .equal]

namespace Starts

variable {ks more : List TokenKind}

/-- Tokens that begin with anything but a name. -/
theorem of_front {k : TokenKind} (hk : k.starts = true) (hname : ∀ name, k ≠ .identifier name) :
    Starts (k :: ks) more where
  starts := hk
  after_name name _ h := absurd (List.cons.inj h).1 (hname name)

/-- An operand, with a token after it that belongs to the same expression. -/
theorem of_opens {os : List TokenKind} (h : Opens os) {k : TokenKind}
    (hk : k ∉ [.symbol .comma, .symbol .rightParen, .symbol .equal]) :
    Starts (os ++ k :: ks) more where
  starts := TokenKind.starts_of_begins (h.begins _)
  after_name name ks' he := by
    cases h with
    | atom a => exact .inr ((List.cons.inj he).2 ▸ hk)
    | bracket hb os => cases (List.cons.inj he).1

theorem of_atom (a : Atom) : Starts ([a.token] ++ more) more where
  starts := TokenKind.starts_of_begins ((Opens.atom a).begins more)
  after_name _ _ he := .inl (List.cons.inj he).2.symm

theorem front_ne (h : Starts ks more) {k : TokenKind} (hk : k.starts = false) : front ks ≠ k := by
  intro he
  exact Bool.noConfusion ((he ▸ h.starts).symm.trans hk)

end Starts

namespace Expr

theorem Expressible.starts {s : Style} (hs : s.Safe) {t : Expr} (h : t.Expressible)
    (more : List TokenKind) : Starts (t.tokens s ++ more) more := by
  have hoperand : ∀ (e : Expr) (k : TokenKind) (ks : List TokenKind),
      k ∉ [.symbol .comma, .symbol .rightParen, .symbol .equal] →
      Starts (e.operandTokens s ++ k :: ks ++ more) more := by
    intro e k ks hk
    rw [List.append_assoc]
    exact .of_opens (hs.opens e) hk
  cases h with
  | @literal _ l => exact .of_atom (.literal l)
  | @identifier _ name => exact .of_atom (.identifier name)
  | topic => exact .of_atom .topic
  | @unary _ op => exact .of_front (by cases op <;> rfl) (by cases op <;> exact nofun)
  | @binary _ op => exact hoperand _ op.token _ (by cases op <;> decide)
  | @logical _ op => exact hoperand _ op.token _ (by cases op <;> decide)
  | coalesce => exact hoperand _ (.symbol .questionQuestion) _ (by decide)
  | conditional => exact .of_front rfl nofun
  | object => exact .of_front rfl nofun
  | array => exact .of_front rfl nofun
  | @access _ _ _ _ extended =>
    exact hoperand _ (.symbol (if extended then .colonColon else .dot)) _
      (by cases extended <;> decide)
  | lookup => exact hoperand _ (.symbol .leftBracket) _ (by decide)
  | call => exact hoperand _ (.symbol .leftParen) _ (by decide)
  | @pipe _ _ ss _ hne =>
    obtain ⟨⟨optional, body⟩, ss, rfl⟩ := List.exists_cons_of_ne_nil hne
    exact hoperand _ (.symbol (if optional then .pipeQuestion else .pipe)) _
      (by cases optional <;> decide)
  | @lambda _ ps body =>
    rw [tokens]
    rcases s.parameters_eq ps with ⟨p, rfl, hps⟩ | hps <;> rw [hps]
    · exact .of_opens (.atom (.identifier p.text)) (by decide)
    · exact .of_front rfl nofun
  | letIn => exact .of_front rfl nofun

theorem Expressible.starts_item {s : Style} (hs : s.Safe) {t : Expr} (h : t.Expressible)
    (more : List TokenKind) : Starts (t.itemTokens s ++ more) more := by
  unfold itemTokens Style.item TokenKind.parenthesized
  split
  · exact .of_front rfl nofun
  · exact h.starts hs more

theorem closesParameters_eq_false {ks : List TokenKind} (h : front ks ≠ .symbol .rightParen) :
    closesParameters ks = false := by
  unfold closesParameters
  split
  · exact absurd rfl h
  · rfl

/-- A tree in parentheses does not look like the parameters of a lambda unless an arrow follows. -/
theorem Expressible.isParameters_tokens {s : Style} (hs : s.Safe) {t : Expr} (h : t.Expressible)
    {more : List TokenKind} (hmore : front more ≠ .symbol .arrow) :
    isParameters (t.tokens s ++ .symbol .rightParen :: more) = false := by
  have hstarts := h.starts hs (.symbol .rightParen :: more)
  generalize t.tokens s ++ .symbol .rightParen :: more = ks at hstarts
  have hcloses : closesParameters ks = false :=
    closesParameters_eq_false (hstarts.front_ne rfl)
  have hend : closesParameters (.symbol .rightParen :: more) = false := by
    unfold closesParameters
    split
    · rename_i he
      exact absurd (congrArg front (List.cons.inj he).2) hmore
    · rfl
  have hnames : namesParameters ks = false := by
    unfold namesParameters
    split
    · rename_i name ks'
      rcases hstarts.after_name name _ rfl with he | hk
      · cases (List.cons.inj he).1
      · exact absurd List.mem_cons_self hk
    · rename_i name ks' _
      rcases hstarts.after_name name _ rfl with rfl | hk
      · exact hend
      · exact closesParameters_eq_false fun he => hk (by rw [he]; decide)
    · rfl
  rw [isParameters, hcloses, hnames]
  rfl

end Expr

end ExprLang
