import ExprLang.Proofs.Parsing.Takes
import ExprLang.Proofs.Precedence.Rows

/-!
How trees are spelled. The tokens of a tree are those of its parts in their order with those of the
node around them; parentheses around an expression or around the only parameter of a lambda and a
comma behind the last item of a list leave no trace in the tree. A parser makes a tree only from
tokens that spell it.
-/
namespace ExprLang

variable {α : Type}

/-- The token is that name, or the keyword that is written so. -/
inductive TokenKind.Names : TokenKind → String → Prop
  | identifier (name : String) : Names (.identifier name) name
  | keyword (k : Keyword) : Names (.keyword k) k.text

def Name.sign (n : Name) : Sign := .part (.identifier n.text) n.span

def Key.IsWritten (kind : TokenKind) : Key → Prop
  | .name n => kind.Names n.text
  | .literal l _ => kind = l.token

/-- A part of a node that holds an expression, with the tokens around those of the expression. -/
structure Clause (α : Type) where
  before : List Sign
  body : List Sign
  after : List Sign
  value : α

namespace Clause

def signs (c : Clause α) : List Sign := c.before ++ c.body ++ c.after

def IsArgument (c : Clause (Argument Expr)) : Prop :=
  match c.value with
  | .value _ => c.before = [] ∧ c.after = []
  | .placeholder span => c.before = [.symbol .hash span] ∧ c.body = [] ∧ c.after = []

/-- A hole has no tokens. -/
def IsElement (c : Clause (Option Expr)) : Prop :=
  c.before = [] ∧ c.after = [] ∧ (c.value = none → c.body = [])

def IsProperty (c : Clause (Property Expr)) : Prop :=
  ∃ kind a, c.value.key.IsWritten kind ∧
    c.before = [.part kind c.value.key.span, .symbol .colon a] ∧ c.after = [] ∧
    c.value.span.Covers c.signs

def IsStage (c : Clause (Stage Expr)) : Prop :=
  ∃ a, c.before = [.symbol (if c.value.optional then .pipeQuestion else .pipe) a] ∧ c.after = []

def IsDeclaration (c : Clause (Declaration Expr)) : Prop :=
  ∃ a b, c.before = [c.value.name.sign, .symbol .equal a] ∧ c.after = [.symbol .comma b] ∧
    c.value.span = c.value.name.span.merge c.value.init.span

end Clause

/-- Items with commas between them. A comma behind the last item may be there or not, but behind a
last hole it is what shows the hole. -/
inductive Listed : List (List Sign) → List Sign → Prop
  | nil : Listed [] []
  | last {us : List Sign} (hne : us ≠ []) : Listed [us] us
  | trailing {us : List Sign} (hne : us ≠ []) (a : Span) :
    Listed [us] (us ++ [⟨⟨.symbol .comma, a⟩, .trailing⟩])
  | hole (a : Span) : Listed [[]] [.symbol .comma a]
  | more {us vs : List Sign} {uss : List (List Sign)} (a : Span) (h : Listed uss vs)
    (hne : uss ≠ []) : Listed (us :: uss) (us ++ [.symbol .comma a] ++ vs)

/-- The parameters of a lambda: a name alone, perhaps in parentheses, or a list in parentheses,
without a comma behind the last name. -/
inductive Parameters : List Sign → List Name → Prop
  | bare (n : Name) : Parameters [n.sign] [n]
  | single (n : Name) (a b : Span) :
    Parameters ([⟨⟨.symbol .leftParen, a⟩, .parameter⟩] ++ [n.sign] ++
      [⟨⟨.symbol .rightParen, b⟩, .parameter⟩]) [n]
  | several {ns : List Name} {vs : List Sign} (a b : Span) (hlength : ns.length ≠ 1)
    (h : Listed (ns.map fun n => [n.sign]) vs) (hparts : ∀ u ∈ vs, u.role = .part) :
    Parameters ([.symbol .leftParen a] ++ vs ++ [.symbol .rightParen b]) ns

/-- The tokens of a tree, each with what it is for. The span of a node covers its tokens, without
parentheses around them. -/
inductive Spells : List Sign → Expr → Prop
  | literal (span : Span) (l : Literal) : Spells [.part l.token span] (.literal span l)
  | identifier (span : Span) (name : String) :
    Spells [.part (.identifier name) span] (.identifier span name)
  | topic (span : Span) : Spells [.symbol .percent span] (.topic span)
  | group {us : List Sign} {e : Expr} (a b : Span) (h : Spells us e) :
    Spells ([⟨⟨.symbol .leftParen, a⟩, .grouping⟩] ++ us ++
      [⟨⟨.symbol .rightParen, b⟩, .grouping⟩]) e
  | unary {us : List Sign} {e : Expr} {span : Span} (op : UnaryOp) (a : Span) (h : Spells us e)
    (hspan : span.Covers ([.part op.token a] ++ us)) :
    Spells ([.part op.token a] ++ us) (.unary span op e)
  | infixed {us vs : List Sign} {left right : Expr} {span : Span} (op : InfixOp) (a : Span)
    (hleft : Spells us left) (hright : Spells vs right)
    (hspan : span.Covers (us ++ [.part op.token a] ++ vs)) :
    Spells (us ++ [.part op.token a] ++ vs) (op.node span left right)
  | conditional {us vs : List Sign} {test consequent : Expr} {span : Span} (a b : Span)
    (htest : Spells us test) (hconsequent : Spells vs consequent)
    (hspan : span.Covers ([.keyword .if_ a] ++ us ++ [.keyword .then_ b] ++ vs)) :
    Spells ([.keyword .if_ a] ++ us ++ [.keyword .then_ b] ++ vs)
      (.conditional span test consequent none)
  | conditionalElse {us vs ws : List Sign} {test consequent alternate : Expr} {span : Span}
    (a b c : Span) (htest : Spells us test) (hconsequent : Spells vs consequent)
    (halternate : Spells ws alternate)
    (hspan : span.Covers
      ([.keyword .if_ a] ++ us ++ [.keyword .then_ b] ++ vs ++ [.keyword .else_ c] ++ ws)) :
    Spells ([.keyword .if_ a] ++ us ++ [.keyword .then_ b] ++ vs ++ [.keyword .else_ c] ++ ws)
      (.conditional span test consequent (some alternate))
  | object {cs : List (Clause (Property Expr))} {vs : List Sign} {span : Span} (a b : Span)
    (hvalues : ∀ c ∈ cs, Spells c.body c.value.value) (hforms : ∀ c ∈ cs, c.IsProperty)
    (hlisted : Listed (cs.map (·.signs)) vs)
    (hspan : span.Covers ([.symbol .leftBrace a] ++ vs ++ [.symbol .rightBrace b])) :
    Spells ([.symbol .leftBrace a] ++ vs ++ [.symbol .rightBrace b])
      (.object span (cs.map (·.value)))
  | array {cs : List (Clause (Option Expr))} {vs : List Sign} {span : Span} (a b : Span)
    (hvalues : ∀ c ∈ cs, ∀ e, c.value = some e → Spells c.body e) (hforms : ∀ c ∈ cs, c.IsElement)
    (hlisted : Listed (cs.map (·.signs)) vs)
    (hspan : span.Covers ([.symbol .leftBracket a] ++ vs ++ [.symbol .rightBracket b])) :
    Spells ([.symbol .leftBracket a] ++ vs ++ [.symbol .rightBracket b])
      (.array span (cs.map (·.value)))
  | access {us : List Sign} {target : Expr} {span : Span} {kind : TokenKind} {name : String}
    (extended : Bool) (a b : Span) (htarget : Spells us target) (hname : kind.Names name)
    (hspan : span.Covers
      (us ++ [.symbol (if extended then .colonColon else .dot) a] ++ [.part kind b])) :
    Spells (us ++ [.symbol (if extended then .colonColon else .dot) a] ++ [.part kind b])
      (.member span target (.identifier b name) false extended)
  | lookup {us vs : List Sign} {target key : Expr} {span : Span} (a b : Span)
    (htarget : Spells us target) (hkey : Spells vs key)
    (hspan : span.Covers (us ++ [.symbol .leftBracket a] ++ vs ++ [.symbol .rightBracket b])) :
    Spells (us ++ [.symbol .leftBracket a] ++ vs ++ [.symbol .rightBracket b])
      (.member span target key true false)
  | call {us vs : List Sign} {callee : Expr} {cs : List (Clause (Argument Expr))} {span : Span}
    (a b : Span) (hcallee : Spells us callee)
    (hvalues : ∀ c ∈ cs, ∀ e, c.value = .value e → Spells c.body e)
    (hforms : ∀ c ∈ cs, c.IsArgument) (hlisted : Listed (cs.map (·.signs)) vs)
    (hspan : span.Covers (us ++ [.symbol .leftParen a] ++ vs ++ [.symbol .rightParen b])) :
    Spells (us ++ [.symbol .leftParen a] ++ vs ++ [.symbol .rightParen b])
      (.call span callee (cs.map (·.value)))
  | pipe {us : List Sign} {head : Expr} {cs : List (Clause (Stage Expr))} {span : Span}
    (hhead : Spells us head) (hvalues : ∀ c ∈ cs, Spells c.body c.value.body)
    (hforms : ∀ c ∈ cs, c.IsStage) (hspan : span.Covers (us ++ cs.flatMap (·.signs))) :
    Spells (us ++ cs.flatMap (·.signs)) (.pipe span head (cs.map (·.value)))
  | lambda {us vs : List Sign} {parameters : List Name} {body : Expr} {span : Span} (a : Span)
    (hparameters : Parameters us parameters) (hbody : Spells vs body)
    (hspan : span.Covers (us ++ [.symbol .arrow a] ++ vs)) :
    Spells (us ++ [.symbol .arrow a] ++ vs) (.lambda span parameters body)
  | letIn {us : List Sign} {cs : List (Clause (Declaration Expr))} {body : Expr} {span : Span}
    (a : Span) (hvalues : ∀ c ∈ cs, Spells c.body c.value.init)
    (hforms : ∀ c ∈ cs, c.IsDeclaration) (hbody : Spells us body)
    (hspan : span.Covers ([.keyword .let_ a] ++ cs.flatMap (·.signs) ++ us)) :
    Spells ([.keyword .let_ a] ++ cs.flatMap (·.signs) ++ us)
      (.letIn span (cs.map (·.value)) body)

theorem Spells.ne_nil {us : List Sign} {e : Expr} (h : Spells us e) : us ≠ [] := by
  induction h <;> simp [*]

theorem Listed.mem {uss : List (List Sign)} {us vs : List Sign} {u : Sign} (h : Listed uss vs)
    (hus : us ∈ uss) (hu : u ∈ us) : u ∈ vs := by
  induction h with
  | nil => cases hus
  | last => exact List.mem_singleton.1 hus ▸ hu
  | trailing => exact List.mem_append_left _ (List.mem_singleton.1 hus ▸ hu)
  | hole => exact absurd (List.mem_singleton.1 hus ▸ hu) List.not_mem_nil
  | more a _ _ ih =>
    rcases List.mem_cons.1 hus with rfl | hus
    · simp [hu]
    · exact List.mem_append_right _ (ih hus)

namespace Clause

theorem mem_signs {x : Clause α} {u : Sign} (h : u ∈ x.body) : u ∈ x.signs := by
  simp [signs, h]

theorem IsArgument.signs_ne_nil {c : Clause (Argument Expr)} (h : c.IsArgument)
    (hvalue : ∀ e, c.value = .value e → Spells c.body e) : c.signs ≠ [] := by
  rcases hc : c.value with e | span
  · simp [signs, (hvalue e hc).ne_nil]
  · rw [IsArgument, hc] at h
    simp [signs, h.1]

theorem IsProperty.signs_ne_nil {c : Clause (Property Expr)} (h : c.IsProperty) :
    c.signs ≠ [] := by
  obtain ⟨kind, a, -, hbefore, -⟩ := h
  simp [signs, hbefore]

theorem IsDeclaration.signs_ne_nil {c : Clause (Declaration Expr)} (h : c.IsDeclaration) :
    c.signs ≠ [] := by
  obtain ⟨a, b, hbefore, -⟩ := h
  simp [signs, hbefore]

end Clause

end ExprLang
