import ExprLang.Listing
import ExprLang.Proofs.Decimals

/-! Every fragment of a listing has a text. -/
namespace ExprLang

open Listing

@[simp] theorem quote_ne_nil (cs : List Char) : Text.quote cs ≠ [] := List.cons_ne_nil _ _

@[simp] theorem listing_ne_nil (l : Literal) : l.listing ≠ [] := by
  rcases l with x | s | b | _
  · change (if Binary64.isFinite x then _ else _) ≠ []
    split
    · exact NumberFormat.value_write_ne_nil x
    · decide
  · exact quote_ne_nil _
  · cases b <;> decide
  · decide

@[simp] theorem unaryHead_ne_nil (op : UnaryOp) : unaryHead op ≠ [] := by cases op <;> decide

@[simp] theorem binaryHead_ne_nil (op : BinaryOp) : binaryHead op ≠ [] := by cases op <;> decide

@[simp] theorem logicalHead_ne_nil (op : LogicalOp) : logicalHead op ≠ [] := by cases op <;> decide

@[simp] theorem lookup_ne_nil (name : String) : Listing.lookup name ≠ [] :=
  List.append_ne_nil_of_right_ne_nil _ (List.cons_ne_nil _ _)

@[simp] theorem logicalMiddle_ne_nil : logicalMiddle ≠ [] := by decide

@[simp] theorem conditionalHead_ne_nil : conditionalHead ≠ [] := by decide

@[simp] theorem conditionalThen_ne_nil : conditionalThen ≠ [] := by decide

@[simp] theorem memberHead_ne_nil : memberHead ≠ [] := by decide

@[simp] theorem callHead_ne_nil : callHead ≠ [] := by decide

@[simp] theorem callOpen_ne_nil : callOpen ≠ [] := by decide

@[simp] theorem callClose_ne_nil : callClose ≠ [] := by decide

@[simp] theorem curryClose_ne_nil : curryClose ≠ [] := by decide

@[simp] theorem pipeHead_ne_nil : pipeHead ≠ [] := by decide

@[simp] theorem stageClose_ne_nil : stageClose ≠ [] := by decide

@[simp] theorem thunkHead_ne_nil : thunkHead ≠ [] := by decide

@[simp] theorem letHead_ne_nil : letHead ≠ [] := by decide

@[simp] theorem valueHead_ne_nil : valueHead ≠ [] := by decide

@[simp] theorem statementClose_ne_nil : statementClose ≠ [] := by decide

@[simp] theorem nameHead_ne_nil : nameHead ≠ [] := by decide

@[simp] theorem letReturn_ne_nil : letReturn ≠ [] := by decide

@[simp] theorem letClose_ne_nil : letClose ≠ [] := by decide

@[simp] theorem numbered_ne_nil (letter : Char) (i : Nat) : numbered letter i ≠ [] :=
  List.cons_ne_nil _ _

@[simp] theorem curryHead_ne_nil (arguments : List (Argument Expr)) : curryHead arguments ≠ [] :=
  List.append_ne_nil_of_right_ne_nil _ (by decide)

@[simp] theorem stageHead_ne_nil (optional : Bool) : stageHead optional ≠ [] :=
  List.append_ne_nil_of_right_ne_nil _ (by decide)

@[simp] theorem lambdaHead_ne_nil (count : Nat) : lambdaHead count ≠ [] :=
  List.append_ne_nil_of_right_ne_nil _ (by decide)

@[simp] theorem lambdaClose_ne_nil (parameters : List Name) : lambdaClose parameters ≠ [] :=
  List.append_ne_nil_of_right_ne_nil _ (by decide)

namespace Fragment

/-- No fragment is empty. -/
def AllWritten (fs : List Fragment) : Prop := ∀ f ∈ fs, f.text ≠ []

@[simp] theorem allWritten_nil : AllWritten [] := fun _ h => nomatch h

@[simp] theorem allWritten_cons {f : Fragment} {fs : List Fragment} :
    AllWritten (f :: fs) ↔ f.text ≠ [] ∧ AllWritten fs :=
  List.forall_mem_cons

@[simp] theorem allWritten_append {fs gs : List Fragment} :
    AllWritten (fs ++ gs) ↔ AllWritten fs ∧ AllWritten gs :=
  List.forall_mem_append

/-- What may stand between two items of a list: nothing after the last one, else a comma. -/
@[simp] theorem allWritten_separator {last : Prop} [Decidable last] {c : Char} {span : Span} :
    AllWritten (if last then [] else [⟨[c], span⟩]) := by
  split <;> simp

end Fragment

open Fragment

namespace Expr

mutual

theorem allWritten_layout : ∀ e : Expr, AllWritten e.layout
  | .literal .. | .identifier .. | .topic _ => by simp [layout]
  | .unary _ op argument => by simp [layout, allWritten_layout argument]
  | .binary _ op left right => by
    simp [layout, allWritten_layout left, allWritten_layout right]
  | .logical _ op left right => by
    simp [layout, allWritten_layout left, allWritten_layout right]
  | .coalesce _ left right => by simp [layout, allWritten_layout left, allWritten_layout right]
  | .conditional _ test consequent alternate => by
    simp [layout, allWritten_layout test, allWritten_layout consequent,
      allWritten_alternateLayout _ alternate]
  | .object span properties => by simp [layout, allWritten_propertiesLayout span properties]
  | .array span elements => by simp [layout, allWritten_elementsLayout span elements]
  | .member _ target key computed _ => by
    cases computed <;>
      simp [layout, allWritten_layout target, allWritten_layout key, allWritten_plainKeyLayout key]
  | .call span callee arguments => by
    rw [layout]
    split
    · simp [allWritten_layout callee, ofString]
    split <;>
      simp [allWritten_layout callee, allWritten_argumentsLayout span 0 arguments]
  | .pipe _ head stages => by
    simp [layout, allWritten_layout head, allWritten_stagesLayout stages]
  | .lambda _ parameters body => by
    rw [layout]
    split <;> simp [allWritten_layout body]
  | .letIn _ declarations body => by
    simp [layout, allWritten_layout body, allWritten_declarationsLayout declarations]

theorem allWritten_plainKeyLayout (e : Expr) : AllWritten e.plainKeyLayout := by
  cases e <;> simp [plainKeyLayout, quoted]

theorem allWritten_alternateLayout (span : Span) :
    ∀ e : Option Expr, AllWritten (alternateLayout span e)
  | none => by simp [alternateLayout, ofString]
  | some e => allWritten_layout e

theorem allWritten_propertiesLayout (span : Span) :
    ∀ ps : List (Property Expr), AllWritten (propertiesLayout span ps)
  | [] => allWritten_nil
  | ⟨_, value, _⟩ :: ps => by
    simp [propertiesLayout, quoted, allWritten_layout value, allWritten_propertiesLayout span ps]

theorem allWritten_elementLayout : ∀ e : Option Expr, AllWritten (elementLayout e)
  | none => allWritten_nil
  | some e => allWritten_layout e

theorem allWritten_elementsLayout (span : Span) :
    ∀ es : List (Option Expr), AllWritten (elementsLayout span es)
  | [] => allWritten_nil
  | e :: es => by
    simp [elementsLayout, allWritten_elementLayout e, allWritten_elementsLayout span es]

theorem allWritten_argumentLayout (i : Nat) :
    ∀ a : Argument Expr, AllWritten (argumentLayout i a)
  | .value e => allWritten_layout e
  | .placeholder _ => by simp [argumentLayout]

theorem allWritten_argumentsLayout (span : Span) :
    ∀ (i : Nat) (as : List (Argument Expr)), AllWritten (argumentsLayout span i as)
  | _, [] => allWritten_nil
  | i, a :: as => by
    simp [argumentsLayout, allWritten_argumentLayout i a,
      allWritten_argumentsLayout span (i + 1) as]

theorem allWritten_stagesLayout : ∀ ss : List (Stage Expr), AllWritten (stagesLayout ss)
  | [] => allWritten_nil
  | ⟨optional, body⟩ :: ss => by
    simp [stagesLayout, allWritten_layout body, allWritten_stagesLayout ss]

theorem allWritten_declarationsLayout :
    ∀ ds : List (Declaration Expr), AllWritten (declarationsLayout ds)
  | [] => allWritten_nil
  | ⟨_, init, _⟩ :: ds => by
    simp [declarationsLayout, allWritten_layout init, allWritten_declarationsLayout ds, quoted]

end

end Expr

end ExprLang
