import ExprLang.Code
import ExprLang.Proofs.Calls
import ExprLang.Proofs.Correspondence.Values

/-!
Code that does the same in two environments, in which it may use different names. Two comparisons
are made: a strict one, of code with the same places and without functions from outside, and one in
which places do not matter and the binding forms of one side may be written as applications on the
other. Such an application takes one call more than the binding form.
-/
namespace ExprLang

/-- How two evaluations are compared. -/
structure Comparison where
  -- The same places, and no functions from outside.
  strict : Prop
  references : Nat → Nat → Prop
  -- How many calls more than the first evaluation the second may nest in each of its calls.
  slack : Nat
  unique : Relator.BiUnique references
  references_eq (h : ¬ strict) : references = Eq

/-- Which names mean the same in two environments. -/
abbrev NamePairs : Type := String → String → Prop

namespace NamePairs

/-- Bound names mean the same if they are at the same position. -/
def bind (D : NamePairs) (names names' : List String) : NamePairs := fun x x' =>
  match names.idxOf? x, names'.idxOf? x' with
  | none, none => D x x'
  | some i, some i' => i = i'
  | _, _ => False

theorem bind_self {D : NamePairs} (names : List String) {x : String} (h : x ∉ names → D x x) :
    D.bind names names x x := by
  unfold bind
  cases hx : names.idxOf? x with
  | none => exact h (List.idxOf?_eq_none_iff.1 hx)
  | some i => rfl

/-- A name that is bound on neither side keeps its meaning. -/
theorem bind_of_not_mem {D : NamePairs} {names names' : List String} {x x' : String} (h : D x x')
    (hx : x ∉ names) (hx' : x' ∉ names') : D.bind names names' x x' := by
  unfold bind
  rw [List.idxOf?_eq_none_iff.2 hx, List.idxOf?_eq_none_iff.2 hx']
  exact h

end NamePairs

/-- The names of missing arguments, one name being given for every argument. -/
def missingNames {α : Type} : List (Option α) → List String → List String
  | none :: slots, n :: names => n :: missingNames slots names
  | some _ :: slots, _ :: names => missingNames slots names
  | _, _ => []

/-- Code that looks up a name, wherever it stands. -/
inductive LooksUp : String → Option Code → Prop where
  | lookup {site : Nat} {name : String} : LooksUp name (some (.lookup site name))

namespace Code

mutual

/-- Code of two evaluations that does the same where the names paired by `D` mean the same, the
second one nesting up to `k` calls more. -/
inductive Corresponds (S : Comparison) : Nat → NamePairs → Code → Code → Prop where
  | undefined {k : Nat} {D : NamePairs} : Corresponds S k D .undefined .undefined
  | constant {k : Nat} {D : NamePairs} {l : Literal} :
    Corresponds S k D (.constant l) (.constant l)
  | lookup {k : Nat} {D : NamePairs} {s s' : Nat} {x x' : String} (hs : S.strict → s = s')
    (hx : D x x') : Corresponds S k D (.lookup s x) (.lookup s' x')
  | topic {k : Nat} {D : NamePairs} {s s' : Nat} (hs : S.strict → s = s')
    (hx : D topicName topicName) : Corresponds S k D (.topic s) (.topic s')
  -- A name may be given to the topic.
  | named {k : Nat} {D : NamePairs} {s s' : Nat} {t : String} (hS : ¬ S.strict)
    (ht : D topicName t) : Corresponds S k D (.topic s) (.lookup s' t)
  | unary {k : Nat} {D : NamePairs} {s s' : Nat} {op : UnaryOp} {c c' : Code}
    (hs : S.strict → s = s') (hc : Corresponds S k D c c') :
    Corresponds S k D (.unary s op c) (.unary s' op c')
  | binary {k : Nat} {D : NamePairs} {s s' : Nat} {op : BinaryOp} {a a' b b' : Code}
    (hs : S.strict → s = s') (ha : Corresponds S k D a a') (hb : Corresponds S k D b b') :
    Corresponds S k D (.binary s op a b) (.binary s' op a' b')
  | logical {k : Nat} {D : NamePairs} {s s' : Nat} {op : LogicalOp} {a a' b b' : Code}
    (hs : S.strict → s = s') (ha : Corresponds S k D a a') (hb : Corresponds S k D b b') :
    Corresponds S k D (.logical s op a b) (.logical s' op a' b')
  | coalesce {k : Nat} {D : NamePairs} {a a' b b' : Code} (ha : Corresponds S k D a a')
    (hb : Corresponds S k D b b') : Corresponds S k D (.coalesce a b) (.coalesce a' b')
  | conditional {k : Nat} {D : NamePairs} {a a' b b' c c' : Code} (ha : Corresponds S k D a a')
    (hb : Corresponds S k D b b') (hc : Corresponds S k D c c') :
    Corresponds S k D (.conditional a b c) (.conditional a' b' c')
  | object {k : Nat} {D : NamePairs} {es es' : List (String × Code)}
    (hes : CorrespondEntries S k D es es') : Corresponds S k D (.object es) (.object es')
  | array {k : Nat} {D : NamePairs} {cs cs' : List (Option Code)}
    (hcs : CorrespondItems S k D cs cs') : Corresponds S k D (.array cs) (.array cs')
  | property {k : Nat} {D : NamePairs} {s s' : Nat} {a a' b b' : Code} (hs : S.strict → s = s')
    (ha : Corresponds S k D a a') (hb : Corresponds S k D b b') :
    Corresponds S k D (.property s a b) (.property s' a' b')
  | callBare {k : Nat} {D : NamePairs} {s s' : Nat} {c c' : Code} (hs : S.strict → s = s')
    (hc : Corresponds S k D c c') : Corresponds S k D (.callBare s c) (.callBare s' c')
  | call {k : Nat} {D : NamePairs} {s s' : Nat} {c c' : Code} {cs cs' : List (Option Code)}
    (hs : S.strict → s = s') (hc : Corresponds S k D c c') (hcs : CorrespondItems S k D cs cs') :
    Corresponds S k D (.call s c cs) (.call s' c' cs')
  | curry {k : Nat} {D : NamePairs} {s s' : Nat} {c c' : Code} {cs cs' : List (Option Code)}
    (hs : S.strict → s = s') (hc : Corresponds S k D c c') (hcs : CorrespondItems S k D cs cs') :
    Corresponds S k D (.curry s c cs) (.curry s' c' cs')
  | pipe {k : Nat} {D : NamePairs} {s s' : Nat} {c c' : Code} {ss ss' : List (Bool × Code)}
    (hs : S.strict → s = s') (hc : Corresponds S k D c c')
    (hss : CorrespondStages S k (D.bind [topicName] [topicName]) ss ss') :
    Corresponds S k D (.pipe s c ss) (.pipe s' c' ss')
  -- The body runs in calls of its own.
  | lambda {k : Nat} {D : NamePairs} {names names' : List String} {c c' : Code}
    (hc : Corresponds S S.slack (D.bind names names') c c') :
    Corresponds S k D (.lambda names c) (.lambda names' c')
  | letIn {k : Nat} {D : NamePairs} {x x' : String} {a a' b b' : Code}
    (ha : Corresponds S k D a a') (hb : Corresponds S k (D.bind [x] [x']) b b') :
    Corresponds S k D (.letIn x a b) (.letIn x' a' b')
  | applied {k : Nat} {D : NamePairs} {s' : Nat} {x x' : String} {a a' b b' : Code}
    (hS : ¬ S.strict) (ha : Corresponds S k D a a') (hb : Corresponds S k (D.bind [x] [x']) b b') :
    Corresponds S (k + 1) D (.letIn x a b) (.call s' (.lambda [x'] b') [some a'])
  | piped {k : Nat} {D : NamePairs} {s s' : Nat} {t : String} {a a' b b' : Code}
    (hS : ¬ S.strict) (ha : Corresponds S k D a a')
    (hb : Corresponds S k (D.bind [topicName] [t]) b b') :
    Corresponds S (k + 1) D (.pipe s a [(false, b)]) (.call s' (.lambda [t] b') [some a'])
  -- The callee and the arguments that are given are kept under names of their own.
  | spelt {k : Nat} {D : NamePairs} {s s' t : Nat} {g : String} {names : List String}
    {c c' inner : Code} {cs arguments : List (Option Code)} (hS : ¬ S.strict)
    (hnames : (g :: names).Nodup) (hc : Corresponds S k D c c')
    (harguments : List.Forall₂ LooksUp names arguments)
    (hcs : CorrespondSlots S k (D.bind [] [g]) cs names
      (.lambda (missingNames cs names) (.call s' (.lookup t g) arguments)) inner) :
    Corresponds S k D (.curry s c cs) (.letIn g c' inner)

inductive CorrespondItems (S : Comparison) :
    Nat → NamePairs → List (Option Code) → List (Option Code) → Prop where
  | nil {k : Nat} {D : NamePairs} : CorrespondItems S k D [] []
  | none {k : Nat} {D : NamePairs} {cs cs' : List (Option Code)}
    (hcs : CorrespondItems S k D cs cs') : CorrespondItems S k D (none :: cs) (none :: cs')
  | some {k : Nat} {D : NamePairs} {c c' : Code} {cs cs' : List (Option Code)}
    (hc : Corresponds S k D c c') (hcs : CorrespondItems S k D cs cs') :
    CorrespondItems S k D (some c :: cs) (some c' :: cs')

inductive CorrespondEntries (S : Comparison) :
    Nat → NamePairs → List (String × Code) → List (String × Code) → Prop where
  | nil {k : Nat} {D : NamePairs} : CorrespondEntries S k D [] []
  | cons {k : Nat} {D : NamePairs} {key : String} {c c' : Code} {es es' : List (String × Code)}
    (hc : Corresponds S k D c c') (hes : CorrespondEntries S k D es es') :
    CorrespondEntries S k D ((key, c) :: es) ((key, c') :: es')

inductive CorrespondStages (S : Comparison) :
    Nat → NamePairs → List (Bool × Code) → List (Bool × Code) → Prop where
  | nil {k : Nat} {D : NamePairs} : CorrespondStages S k D [] []
  | cons {k : Nat} {D : NamePairs} {optional : Bool} {c c' : Code} {ss ss' : List (Bool × Code)}
    (hc : Corresponds S k D c c') (hss : CorrespondStages S k D ss ss') :
    CorrespondStages S k D ((optional, c) :: ss) ((optional, c') :: ss')

/-- Bindings of the arguments that are given, around an inner code. -/
inductive CorrespondSlots (S : Comparison) :
    Nat → NamePairs → List (Option Code) → List String → Code → Code → Prop where
  | nil {k : Nat} {D : NamePairs} {inner : Code} : CorrespondSlots S k D [] [] inner inner
  | missing {k : Nat} {D : NamePairs} {n : String} {cs : List (Option Code)} {names : List String}
    {inner c' : Code} (hcs : CorrespondSlots S k D cs names inner c') :
    CorrespondSlots S k D (none :: cs) (n :: names) inner c'
  | given {k : Nat} {D : NamePairs} {n : String} {c a' : Code} {cs : List (Option Code)}
    {names : List String} {inner c' : Code} (hc : Corresponds S k D c a')
    (hcs : CorrespondSlots S k (D.bind [] [n]) cs names inner c') :
    CorrespondSlots S k D (some c :: cs) (n :: names) inner (.letIn n a' c')

end

variable {S : Comparison}

mutual

/-- Code does the same as itself. -/
theorem corresponds_self {D : NamePairs} (hD : ∀ x, D x x) (k : Nat) :
    ∀ c : Code, Corresponds S k D c c
  | .undefined => .undefined
  | .constant _ => .constant
  | .lookup _ x => .lookup (fun _ => rfl) (hD x)
  | .topic _ => .topic (fun _ => rfl) (hD _)
  | .unary _ _ c => .unary (fun _ => rfl) (corresponds_self hD k c)
  | .binary _ _ a b => .binary (fun _ => rfl) (corresponds_self hD k a) (corresponds_self hD k b)
  | .logical _ _ a b => .logical (fun _ => rfl) (corresponds_self hD k a) (corresponds_self hD k b)
  | .coalesce a b => .coalesce (corresponds_self hD k a) (corresponds_self hD k b)
  | .conditional a b c =>
    .conditional (corresponds_self hD k a) (corresponds_self hD k b) (corresponds_self hD k c)
  | .object es => .object (correspondEntries_self hD k es)
  | .array cs => .array (correspondItems_self hD k cs)
  | .property _ a b =>
    .property (fun _ => rfl) (corresponds_self hD k a) (corresponds_self hD k b)
  | .callBare _ c => .callBare (fun _ => rfl) (corresponds_self hD k c)
  | .call _ c cs => .call (fun _ => rfl) (corresponds_self hD k c) (correspondItems_self hD k cs)
  | .curry _ c cs => .curry (fun _ => rfl) (corresponds_self hD k c) (correspondItems_self hD k cs)
  | .pipe _ c ss =>
    .pipe (fun _ => rfl) (corresponds_self hD k c)
      (correspondStages_self (fun x => NamePairs.bind_self _ fun _ => hD x) k ss)
  | .lambda _ c => .lambda (corresponds_self (fun x => NamePairs.bind_self _ fun _ => hD x) _ c)
  | .letIn _ a b =>
    .letIn (corresponds_self hD k a)
      (corresponds_self (fun x => NamePairs.bind_self _ fun _ => hD x) k b)

theorem correspondItems_self {D : NamePairs} (hD : ∀ x, D x x) (k : Nat) :
    ∀ cs : List (Option Code), CorrespondItems S k D cs cs
  | [] => .nil
  | none :: cs => .none (correspondItems_self hD k cs)
  | some c :: cs => .some (corresponds_self hD k c) (correspondItems_self hD k cs)

theorem correspondEntries_self {D : NamePairs} (hD : ∀ x, D x x) (k : Nat) :
    ∀ es : List (String × Code), CorrespondEntries S k D es es
  | [] => .nil
  | (_, c) :: es => .cons (corresponds_self hD k c) (correspondEntries_self hD k es)

theorem correspondStages_self {D : NamePairs} (hD : ∀ x, D x x) (k : Nat) :
    ∀ ss : List (Bool × Code), CorrespondStages S k D ss ss
  | [] => .nil
  | (_, c) :: ss => .cons (corresponds_self hD k c) (correspondStages_self hD k ss)

end

theorem CorrespondStages.optionals {k : Nat} {D : NamePairs} {ss ss' : List (Bool × Code)} :
    CorrespondStages S k D ss ss' → ss.map (·.1) = ss'.map (·.1)
  | .nil => rfl
  | .cons _ hss => congrArg (_ :: ·) hss.optionals

end Code

end ExprLang
