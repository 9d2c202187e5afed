import ExprLang.Proofs.Listings.Decides
import ExprLang.Proofs.Listings.Texts
import ExprLang.Proofs.Parsing.Regular

/-!
How the text of a tree begins. The first characters show what kind of node the tree is, apart from
what is written alike.
-/
namespace ExprLang

open Listing

/-- What the beginning of a text shows. -/
inductive Form where
  | number | string | boolean (b : Bool) | null
  | lookup | unary | binary | logical | coalesce | conditional
  | object | array | member | call | curry | pipe | thunk | lambda | letIn
  -- Nothing that a tree is written as.
  | other
deriving DecidableEq

namespace Form

/-- The form of a text behind the parenthesis that it begins with. -/
def behindParen : List Char → Form
  | 'b' :: 'o' :: 'o' :: _ => .conditional
  | '(' :: ')' :: _ => .thunk
  | '(' :: 's' :: 'c' :: 'o' :: 'p' :: 'e' :: ',' :: _ => .lambda
  | 's' :: 'c' :: 'o' :: 'p' :: 'e' :: '=' :: '>' :: '(' :: _ => .curry
  | 's' :: _ => .letIn
  | _ => .coalesce

def of : List Char → Form
  | '(' :: cs => behindParen cs
  | '"' :: _ => .string
  | 't' :: _ => .boolean true
  | 'f' :: _ => .boolean false
  | 'n' :: _ => .null
  | 'g' :: _ => .lookup
  | 'u' :: 'o' :: _ => .unary
  | 'b' :: _ => .binary
  | 'l' :: _ => .logical
  | '\x7b' :: _ => .object
  | '[' :: _ => .array
  | 'p' :: 'r' :: _ => .member
  | 'p' :: _ => .pipe
  | 'c' :: _ => .call
  | c :: _ => if c.isDigit then .number else .other
  | [] => .other

end Form

def Literal.form : Literal → Form
  | .number x => if Binary64.isFinite x then .number else .null
  | .string _ => .string
  | .boolean b => .boolean b
  | .null => .null

def Expr.form : Expr → Form
  | literal _ l => l.form
  | identifier .. | topic _ => .lookup
  | unary .. => .unary
  | binary .. => .binary
  | logical .. => .logical
  | coalesce .. => .coalesce
  | conditional .. => .conditional
  | object .. => .object
  | array .. => .array
  | member .. => .member
  | call _ _ arguments => if arguments.any (·.isPlaceholder) then .curry else .call
  | pipe .. => .pipe
  | lambda _ parameters _ => if parameters.isEmpty then .thunk else .lambda
  | letIn .. => .letIn

/-- The forms of one kind of node, by one of them. -/
def Form.kind : Form → Form
  | .number | .string | .boolean _ => .null
  | .curry => .call
  | .thunk => .lambda
  | f => f

def Expr.kind : Expr → Form
  | literal .. => .null
  | identifier .. | topic _ => .lookup
  | unary .. => .unary
  | binary .. => .binary
  | logical .. => .logical
  | coalesce .. => .coalesce
  | conditional .. => .conditional
  | object .. => .object
  | array .. => .array
  | member .. => .member
  | call .. => .call
  | pipe .. => .pipe
  | lambda .. => .lambda
  | letIn .. => .letIn

theorem Expr.kind_form (e : Expr) : e.form.kind = e.kind := by
  cases e with
  | literal span l =>
    rcases l with x | s | b | _
    · rw [form, Literal.form]
      split <;> rfl
    all_goals rfl
  | call span callee arguments =>
    rw [form]
    split <;> rfl
  | lambda span parameters body =>
    rw [form]
    split <;> rfl
  | _ => rfl

theorem Expr.form_ne_other (e : Expr) : e.form ≠ .other := by
  intro hother
  have hkind := kind_form e
  rw [hother] at hkind
  cases e <;> nomatch hkind

namespace Form

/-- How trees begin, apart from numbers and from those that begin with a tree in parentheses. -/
def heads : List (Form × List Char) :=
  [(.string, ['"']), (.boolean true, ['t']), (.boolean false, ['f']), (.null, ['n']),
    (.lookup, ['g']), (.unary, ['u', 'o']), (.binary, ['b', 'o', 'p']), (.logical, ['l']),
    (.conditional, ['(', 'b', 'o', 'o']), (.object, ['\x7b']), (.array, ['[']),
    (.member, ['p', 'r']), (.call, ['c']),
    (.curry, ['(', 's', 'c', 'o', 'p', 'e', '=', '>', '(']), (.pipe, ['p', 'i']),
    (.thunk, ['(', '(', ')']), (.lambda, ['(', '(', 's', 'c', 'o', 'p', 'e', ',']),
    (.letIn, ['(', 's', 'c', 'o', 'p', 'e', '=', '>', '\x7b'])]

/-- Characters that no tree begins with. -/
def Leads (c : Char) : Prop := c ∉ closers ∧ c ≠ 's'

instance (c : Char) : Decidable (Leads c) := inferInstanceAs (Decidable (_ ∧ _))

theorem of_head {b : Form × List Char} (h : b ∈ heads) (cs : List Char) : of (b.2 ++ cs) = b.1 := by
  fin_cases h <;> rfl

theorem behindParen_head {b : Form × List Char} (h : b ∈ heads) (cs : List Char) :
    behindParen (b.2 ++ cs) = .coalesce := by
  fin_cases h <;> rfl

theorem leads_head {b : Form × List Char} (h : b ∈ heads) : ∃ c ∈ b.2.head?, Leads c := by
  fin_cases h <;> exact ⟨_, rfl, by decide⟩

theorem ne_of_isDigit {c d : Char} (hc : c.isDigit) (hd : d.isDigit = false) : c ≠ d := by
  rintro rfl
  rw [hc] at hd
  cases hd

theorem of_digit {c : Char} (h : c.isDigit) (cs : List Char) : of (c :: cs) = .number := by
  unfold of
  split <;> simp_all

theorem behindParen_digit {c : Char} (h : c.isDigit) (cs : List Char) :
    behindParen (c :: cs) = .coalesce := by
  unfold behindParen
  split <;> simp_all

theorem leads_digit {c : Char} (h : c.isDigit) : Leads c := by
  refine ⟨fun hc => ?_, ne_of_isDigit h rfl⟩
  unfold closers at hc
  fin_cases hc <;> cases h

theorem behindParen_paren {c : Char} (h : Leads c) (cs : List Char) :
    behindParen ('(' :: c :: cs) = .coalesce := by
  unfold behindParen
  split <;> simp_all [Leads, closers]

end Form

namespace Listing

theorem exists_unaryHead (op : UnaryOp) : ∃ cs, unaryHead op = ['u', 'o'] ++ cs :=
  ⟨(unaryHead op).drop 2, by cases op <;> decide⟩

theorem exists_binaryHead (op : BinaryOp) : ∃ cs, binaryHead op = ['b', 'o', 'p'] ++ cs :=
  ⟨(binaryHead op).drop 3, by cases op <;> decide⟩

theorem exists_logicalHead (op : LogicalOp) : ∃ cs, logicalHead op = ['l'] ++ cs :=
  ⟨(logicalHead op).drop 1, by cases op <;> decide⟩

theorem exists_lookup (name : String) : ∃ cs, lookup name = ['g'] ++ cs := by
  have hhead : "get(scope,".toList = ['g'] ++ "et(scope,".toList := by decide
  unfold lookup
  rw [hhead]
  exact ⟨_, List.append_assoc ..⟩

theorem conditionalHead_eq : conditionalHead = ['(', 'b', 'o', 'o'] ++ ['l', '('] := by decide

theorem memberHead_eq : memberHead = ['p', 'r'] ++ ['o', 'p', '('] := by decide

theorem callHead_eq : callHead = ['c'] ++ ['a', 'l', 'l', '('] := by decide

theorem pipeHead_eq : pipeHead = ['p', 'i'] ++ ['p', 'e', '('] := by decide

theorem thunkHead_eq : thunkHead = ['(', '(', ')'] ++ ['=', '>'] := by decide

theorem exists_letHead :
    ∃ cs, letHead = ['(', 's', 'c', 'o', 'p', 'e', '=', '>', '\x7b'] ++ cs :=
  ⟨letHead.drop 9, by decide⟩

theorem exists_curryHead (as : List (Argument Expr)) :
    ∃ cs, curryHead as = ['(', 's', 'c', 'o', 'p', 'e', '=', '>', '('] ++ cs := by
  have hhead : "(scope=>(".toList = ['(', 's', 'c', 'o', 'p', 'e', '=', '>', '('] := by decide
  unfold curryHead
  rw [hhead]
  exact ⟨_, List.append_assoc ..⟩

theorem exists_lambdaHead (count : Nat) :
    ∃ cs, lambdaHead count = ['(', '(', 's', 'c', 'o', 'p', 'e', ','] ++ cs := by
  have hhead : "((scope,params)=>function(".toList =
      ['(', '(', 's', 'c', 'o', 'p', 'e', ','] ++ "params)=>function(".toList := by decide
  unfold lambdaHead
  rw [hhead]
  simp only [List.append_assoc]
  exact ⟨_, rfl⟩

end Listing

namespace Expr

/-- How the text of a tree begins. -/
inductive Begins (e : Expr) : Prop
  | head {f : Form} {h : List Char} (cs : List Char) (hb : (f, h) ∈ Form.heads)
    (htext : e.text = h ++ cs) (hform : e.form = f)
  | digit {c : Char} (cs : List Char) (hc : c.isDigit) (htext : e.text = c :: cs)
    (hform : e.form = .number)
  | coalesce {span : Span} {left right : Expr} (heq : e = .coalesce span left right)

theorem Begins.of_head {e : Expr} {f : Form} {h head cs : List Char} (hform : e.form = f)
    (hhead : head = h ++ cs) (rest : List Char) (htext : e.text = head ++ rest)
    (hb : (f, h) ∈ Form.heads) : e.Begins :=
  .head (cs ++ rest) hb (by rw [htext, hhead, List.append_assoc]) hform

theorem begins_literal {span : Span} {l : Literal} (h : (literal span l).Regular) :
    (literal span l).Begins := by
  have htext : (literal span l).text = l.listing := text_literal l
  rcases l with x | s | b | _
  · by_cases hfinite : Binary64.isFinite x
    · obtain ⟨t, ht, hwrite⟩ := NumberFormat.value_write_eq hfinite h.isNegative
      obtain ⟨c, cs, hcs⟩ := List.exists_cons_of_ne_nil ht.whole_ne_nil
      refine .digit (cs ++ (t.fractionChars ++ t.exponentChars))
        (ht.whole_isDigit c (hcs ▸ List.mem_cons_self)) ?_ (if_pos hfinite)
      rw [htext, Literal.listing, if_pos hfinite, hwrite, NumberText.chars, hcs]
      rfl
    · refine .head (f := .null) (h := ['n']) "ull".toList (by decide) ?_ (if_neg hfinite)
      rw [htext, Literal.listing, if_neg hfinite]
      decide
  · exact .head (f := .string) (h := ['"']) _ (by decide) htext rfl
  · cases b with
    | true =>
      refine .head (f := .boolean true) (h := ['t']) "rue".toList (by decide) (htext.trans ?_) rfl
      decide
    | false =>
      refine .head (f := .boolean false) (h := ['f']) "alse".toList (by decide) (htext.trans ?_) rfl
      decide
  · refine .head (f := .null) (h := ['n']) "ull".toList (by decide) (htext.trans ?_) rfl
    decide

theorem begins {e : Expr} (he : e.Regular) : e.Begins := by
  cases e with
  | literal span l => exact begins_literal he
  | identifier span name =>
    obtain ⟨cs, hcs⟩ := exists_lookup name
    exact .of_head (f := .lookup) rfl hcs [] (by rw [text_identifier, List.append_nil]) (by decide)
  | topic span =>
    obtain ⟨cs, hcs⟩ := exists_lookup topicName
    exact .of_head (f := .lookup) rfl hcs [] (by rw [text_topic, List.append_nil]) (by decide)
  | unary span op argument =>
    obtain ⟨cs, hcs⟩ := exists_unaryHead op
    exact .of_head (f := .unary) rfl hcs _ (text_unary op) (by decide)
  | binary span op left right =>
    obtain ⟨cs, hcs⟩ := exists_binaryHead op
    exact .of_head (f := .binary) rfl hcs _ (text_binary op) (by decide)
  | logical span op left right =>
    obtain ⟨cs, hcs⟩ := exists_logicalHead op
    exact .of_head (f := .logical) rfl hcs _ (text_logical op) (by decide)
  | coalesce => exact .coalesce rfl
  | conditional span test consequent alternate =>
    exact .of_head (f := .conditional) rfl conditionalHead_eq _ (text_conditional alternate)
      (by decide)
  | object span properties =>
    exact .head (f := .object) (h := ['\x7b']) _ (by decide) (text_object properties) rfl
  | array span elements =>
    exact .head (f := .array) (h := ['[']) _ (by decide) (text_array elements) rfl
  | member span target key computed extended =>
    exact .of_head (f := .member) rfl memberHead_eq _ (text_member computed extended) (by decide)
  | call span callee arguments =>
    cases hplaceholder : arguments.any (·.isPlaceholder) with
    | true =>
      obtain ⟨cs, hcs⟩ := exists_curryHead arguments
      exact .of_head (f := .curry) (if_pos hplaceholder) hcs _ (text_curry hplaceholder) (by decide)
    | false =>
      exact .of_head (f := .call) (if_neg (Bool.eq_false_iff.1 hplaceholder)) callHead_eq _
        (text_call hplaceholder) (by decide)
  | pipe span head stages =>
    exact .of_head (f := .pipe) rfl pipeHead_eq _ (text_pipe stages) (by decide)
  | lambda span parameters body =>
    cases parameters with
    | nil => exact .of_head (f := .thunk) rfl thunkHead_eq _ text_thunk (by decide)
    | cons p ps =>
      obtain ⟨cs, hcs⟩ := exists_lambdaHead (p :: ps).length
      exact .of_head (f := .lambda) rfl hcs _ (text_lambda (List.cons_ne_nil p ps)) (by decide)
  | letIn span declarations body =>
    obtain ⟨cs, hcs⟩ := exists_letHead
    exact .of_head (f := .letIn) rfl hcs _ (text_letIn declarations) (by decide)

theorem exists_leads {e : Expr} (he : e.Regular) : ∃ c cs, e.text = c :: cs ∧ Form.Leads c := by
  cases begins he with
  | head cs hb htext hform =>
    obtain ⟨c, hc, hleads⟩ := Form.leads_head hb
    obtain ⟨ds, hds⟩ := List.head?_eq_some_iff.1 hc
    exact ⟨c, ds ++ cs, by rw [htext]; exact congrArg (· ++ cs) hds, hleads⟩
  | digit cs hc htext hform => exact ⟨_, cs, htext, Form.leads_digit hc⟩
  | coalesce heq => exact ⟨'(', _, heq ▸ text_coalesce, by decide⟩

theorem opening_text {e : Expr} (he : e.Regular) : Opening e.text :=
  let ⟨c, cs, htext, hc, _⟩ := exists_leads he
  ⟨c, cs, htext, hc⟩

theorem behindParen_text {e : Expr} (he : e.AllRegular) (r : List Char) :
    Form.behindParen (e.text ++ r) = .coalesce := by
  cases begins he.root with
  | head cs hb htext hform =>
    rw [htext, List.append_assoc]
    exact Form.behindParen_head hb _
  | digit cs hc htext hform =>
    rw [htext]
    exact Form.behindParen_digit hc _
  | @coalesce span left right heq =>
    subst heq
    obtain ⟨c, cs, htext, hc⟩ := exists_leads (he.child (c := left) (by simp [children])).root
    rw [text_coalesce, htext]
    exact Form.behindParen_paren hc _

/-- The text of a tree shows its form, whatever follows. -/
theorem form_text {e : Expr} (he : e.AllRegular) (r : List Char) :
    Form.of (e.text ++ r) = e.form := by
  cases begins he.root with
  | head cs hb htext hform =>
    rw [htext, List.append_assoc, hform]
    exact Form.of_head hb _
  | digit cs hc htext hform =>
    rw [htext, hform]
    exact Form.of_digit hc _
  | @coalesce span left right heq =>
    subst heq
    rw [text_coalesce, List.cons_append, List.append_assoc]
    exact behindParen_text (he.child (c := left) (by simp [children])) _

end Expr

end ExprLang
