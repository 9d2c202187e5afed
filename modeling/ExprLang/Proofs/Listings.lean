import ExprLang.Proofs.Compilation
import ExprLang.Proofs.Handover
import ExprLang.Proofs.Listings.Functions
import ExprLang.Proofs.Shapes

/-!
Expressions with the same listing. Their trees are read off the listing from the left: the beginning
of each text shows the kind of its node, and each part shows where it ends. So texts that are listed
alike are evaluated alike, apart from what a listing does not show.
-/
namespace ExprLang

namespace Expr

variable {span span' : Span} {e e' : Expr}

theorem told_identifier (name name' : String) :
    Told (identifier span name) (identifier span' name') := by
  refine .of (P := name = name') ?_ ?_
  · rw [text_identifier, text_identifier]
    exact decides_lookup name name'
  · rintro rfl - start
    rfl

/-- No variable is looked up like the topic. -/
theorem decides_topic {name : String} (hname : name ≠ topicName) {P : Prop} :
    Decides (identifier span name).text (topic span').text P := by
  rw [text_identifier, text_topic]
  exact (decides_lookup name topicName).imp fun _ h => absurd h hname

theorem told_topic : Told (topic span) (topic span') := by
  refine .of (P := True) ?_ fun _ _ _ => rfl
  rw [text_topic, text_topic]
  exact .same _

/-- Nodes that begin alike agree if their children do. -/
theorem told_of_children (he : e.AllRegular) (he' : e'.AllRegular) (hform : e.form = e'.form)
    (ih : ∀ c ∈ e.children, ∀ c' ∈ e'.children, Told c c') : Told e e' := by
  have hkind : e.kind = e'.kind := by rw [← kind_form, ← kind_form, hform]
  cases e with
  | literal span l =>
    cases e' with
    | literal span' l' => exact told_literal he.root he'.root hform
    | _ => nomatch hkind
  | identifier span name =>
    cases e' with
    | identifier span' name' => exact told_identifier name name'
    | topic span' => exact decides_topic he.root
    | _ => nomatch hkind
  | topic span =>
    cases e' with
    | identifier span' name' => exact (decides_topic he'.root).symm
    | topic span' => exact told_topic
    | _ => nomatch hkind
  | unary span op a =>
    cases e' with
    | unary span' op' a' => exact told_unary op op' (ih a (.head _) a' (.head _))
    | _ => nomatch hkind
  | binary span op a b =>
    cases e' with
    | binary span' op' a' b' =>
      exact told_binary op op' (ih a (.head _) a' (.head _))
        (ih b (.tail _ (.head _)) b' (.tail _ (.head _)))
    | _ => nomatch hkind
  | logical span op a b =>
    cases e' with
    | logical span' op' a' b' =>
      exact told_logical op op' (ih a (.head _) a' (.head _))
        (ih b (.tail _ (.head _)) b' (.tail _ (.head _)))
    | _ => nomatch hkind
  | coalesce span a b =>
    cases e' with
    | coalesce span' a' b' =>
      exact told_coalesce (ih a (.head _) a' (.head _))
        (ih b (.tail _ (.head _)) b' (.tail _ (.head _)))
    | _ => nomatch hkind
  | conditional span a b x =>
    cases e' with
    | conditional span' a' b' x' =>
      have hx : ∀ c ∈ x, c ∈ (conditional span a b x).children :=
        fun c hc => .tail _ (.tail _ (Option.mem_toList.2 hc))
      have hx' : ∀ c ∈ x', c ∈ (conditional span' a' b' x').children :=
        fun c hc => .tail _ (.tail _ (Option.mem_toList.2 hc))
      exact told_conditional (ih a (.head _) a' (.head _))
        (ih b (.tail _ (.head _)) b' (.tail _ (.head _)))
        (told_alternate (fun c hc => he.child (hx c hc)) (fun c hc => he'.child (hx' c hc))
          fun c hc c' hc' => ih c (hx c hc) c' (hx' c' hc'))
    | _ => nomatch hkind
  | object span ps =>
    cases e' with
    | object span' ps' =>
      exact told_object fun p hp p' hp' => ih _ (List.mem_map_of_mem hp) _ (List.mem_map_of_mem hp')
    | _ => nomatch hkind
  | array span es =>
    cases e' with
    | array span' es' =>
      have hes : ∀ c, some c ∈ es → c ∈ (array span es).children :=
        fun c hc => List.mem_filterMap.2 ⟨some c, hc, rfl⟩
      have hes' : ∀ c, some c ∈ es' → c ∈ (array span' es').children :=
        fun c hc => List.mem_filterMap.2 ⟨some c, hc, rfl⟩
      exact told_array (fun c hc => he.child (hes c hc)) (fun c hc => he'.child (hes' c hc))
        fun c hc c' hc' => ih c (hes c hc) c' (hes' c' hc')
    | _ => nomatch hkind
  | member span a key computed extended =>
    cases e' with
    | member span' a' key' computed' extended' =>
      exact told_member (ih a (.head _) a' (.head _))
        (decides_key he he' (ih key (.tail _ (.head _)) key' (.tail _ (.head _))))
    | _ => nomatch hkind
  | call span a as =>
    cases e' with
    | call span' a' as' =>
      have has : ∀ x ∈ as.zipIdx, ∀ c ∈ x.1.value?, c ∈ (call span a as).children :=
        fun x hx c hc => .tail _ (List.mem_filterMap.2 ⟨x.1, List.fst_mem_of_mem_zipIdx hx, hc⟩)
      have has' : ∀ x ∈ as'.zipIdx, ∀ c ∈ x.1.value?, c ∈ (call span' a' as').children :=
        fun x hx c hc => .tail _ (List.mem_filterMap.2 ⟨x.1, List.fst_mem_of_mem_zipIdx hx, hc⟩)
      refine told_call (fun x hx => opening_argument fun c hc => he.child (has x hx c hc))
        (fun x hx => opening_argument fun c hc => he'.child (has' x hx c hc))
        (fun x hx x' hx' => ?_) (ih a (.head _) a' (.head _)) hform
      exact told_argument (fun c hc => he.child (has x hx c hc))
        (fun c hc => he'.child (has' x' hx' c hc))
        fun c hc c' hc' => ih c (has x hx c hc) c' (has' x' hx' c' hc')
    | _ => nomatch hkind
  | pipe span a ss =>
    cases e' with
    | pipe span' a' ss' =>
      exact told_pipe (ih a (.head _) a' (.head _)) fun s hs s' hs' =>
        ih _ (.tail _ (List.mem_map_of_mem hs)) _ (.tail _ (List.mem_map_of_mem hs'))
    | _ => nomatch hkind
  | lambda span ps a =>
    cases e' with
    | lambda span' ps' a' =>
      have ha : Told a a' := ih a (.head _) a' (.head _)
      rcases ps with _ | ⟨p, ps⟩ <;> rcases ps' with _ | ⟨p', ps'⟩
      · exact told_thunk ha
      · nomatch hform
      · nomatch hform
      · exact told_lambda (List.cons_ne_nil p ps) (List.cons_ne_nil p' ps') ha
    | _ => nomatch hkind
  | letIn span ds a =>
    cases e' with
    | letIn span' ds' a' =>
      exact told_letIn (fun d hd d' hd' => ih _ (List.mem_append_left _ (List.mem_map_of_mem hd)) _
          (List.mem_append_left _ (List.mem_map_of_mem hd')))
        (ih a (List.mem_append_right _ (.head _)) a' (List.mem_append_right _ (.head _)))
    | _ => nomatch hkind

/-- Trees of which one is written like the other agree. -/
theorem told {e e' : Expr} (he : e.AllRegular) (he' : e'.AllRegular) : Told e e' := by
  intro r r' hr hr' heq
  have hform : e.form = e'.form := by rw [← form_text he r, heq, form_text he' r']
  exact told_of_children he he' hform
    (fun c hc c' hc' => told (he.child hc) (he'.child hc')) r r' hr hr' heq
termination_by e.height
decreasing_by exact height_lt hc

/-- A listing tells the code of a tree, but for what it does not show. -/
theorem agrees_of_text_eq (he : e.AllRegular) (he' : e'.AllRegular) (h : e.text = e'.text) :
    Agrees e e' :=
  have hends : Closes [] := nofun
  (told he he' [] [] hends hends (congrArg (· ++ []) h)).2

end Expr

namespace Expression

variable {source source' : String} {options : Options} {e e' : Expr} {x y : Expression}

theorem listing_ofTree (hx : ofTree e source options = .ok x) : x.listing = e.text := by
  rw [ofTree_eq_ok hx]
  rfl

/-- An evaluation but for the spans that explain a fault: the fault has its error and its site. -/
def outcome (x : Expression) (depth : Nat) (data : Option Value) (w : Store Code Nat) :
    Option (Except Fault Value) × Store Code Nat :=
  (x.evaluate depth data w).map (·.map (·.mapError (·.cause))) id

theorem outcome_eq (x : Expression) (depth : Nat) (data : Option Value) (w : Store Code Nat) :
    x.outcome depth data w = (x.code.eval depth (x.env data)).run w := by
  unfold outcome evaluate
  change Prod.map _ id (Prod.map _ id (x.code.eval depth (x.env data) w)) =
    x.code.eval depth (x.env data) w
  rcases x.code.eval depth (x.env data) w with ⟨_ | _ | _, u⟩ <;> rfl

/-- Texts with the same listing are evaluated alike if what their listing does not show stands at
the same places of their trees. -/
theorem outcome_eq_of_listing_eq (hs : Expr.parse source = .ok e) (ht : Expr.parse source' = .ok e')
    (hx : compile source options = .ok x) (hy : compile source' options = .ok y)
    (hlisting : x.listing = y.listing) (hplaces : e.SamePlaces e') (depth : Nat)
    (data : Option Value) (w : Store Code Nat) :
    x.outcome depth data w = y.outcome depth data w := by
  rw [compile_of_parse hs] at hx
  rw [compile_of_parse ht] at hy
  rw [listing_ofTree hx, listing_ofTree hy] at hlisting
  have hagrees := Expr.agrees_of_text_eq (allRegular_of_parse hs) (allRegular_of_parse ht) hlisting
  rw [outcome_eq, outcome_eq, code_ofTree hx, code_ofTree hy, hagrees.compile hplaces,
    env_ofTree hx, env_ofTree hy]

/-- A number beyond the range of doubles and a property accessed by its name. -/
def dottedText : String := "[1e400,x.y]"

/-- The same with another such number and the name as a string. -/
def bracketedText : String := "[1e999,x[\"y\"]]"

def unbounded : Expr := .literal ⟨⟨1, 1, 2⟩, ⟨6, 1, 7⟩⟩ (.number (Binary64.infinity false))

def accessed : Expr := .identifier ⟨⟨7, 1, 8⟩, ⟨8, 1, 9⟩⟩ "x"

def dottedTree : Expr :=
  .array ⟨⟨0, 1, 1⟩, ⟨11, 1, 12⟩⟩ [some unbounded,
    some (.member ⟨⟨7, 1, 8⟩, ⟨10, 1, 11⟩⟩ accessed
      (.identifier ⟨⟨9, 1, 10⟩, ⟨10, 1, 11⟩⟩ "y") false false)]

def bracketedTree : Expr :=
  .array ⟨⟨0, 1, 1⟩, ⟨14, 1, 15⟩⟩ [some unbounded,
    some (.member ⟨⟨7, 1, 8⟩, ⟨13, 1, 14⟩⟩ accessed
      (.literal ⟨⟨9, 1, 10⟩, ⟨12, 1, 13⟩⟩ (.string "y")) true false)]

set_option maxRecDepth 8192 in
theorem outcome_eq_of_listing_eq_unbounded :
    Expr.parse dottedText = .ok dottedTree ∧ Expr.parse bracketedText = .ok bracketedTree ∧
      dottedTree.SamePlaces bracketedTree ∧ ∃ x y, compile dottedText .standard = .ok x ∧
        compile bracketedText .standard = .ok y ∧ x.listing = y.listing ∧
        ∀ depth data w, x.outcome depth data w = y.outcome depth data w := by
  have hs : Expr.parse dottedText = .ok dottedTree := by with_unfolding_all rfl
  have ht : Expr.parse bracketedText = .ok bracketedTree := by with_unfolding_all rfl
  have hplaces : dottedTree.SamePlaces bracketedTree :=
    .of_children rfl rfl (.cons (.refl unbounded) (.cons (.of_children rfl rfl
      (.cons (.refl accessed) (.cons (.of_children rfl rfl .nil) .nil))) .nil))
  have hx : compile dottedText .standard = ofTree dottedTree _ .standard := compile_of_parse hs
  have hy : compile bracketedText .standard = ofTree bracketedTree _ .standard :=
    compile_of_parse ht
  have hlisting : Fragment.join dottedTree.layout = Fragment.join bracketedTree.layout := by
    decide +kernel
  exact ⟨hs, ht, hplaces, _, _, hx, hy, hlisting,
    outcome_eq_of_listing_eq hs ht hx hy hlisting hplaces⟩

/-- What a listing does not show: a number beyond the range of doubles is written like null, and an
array of a single hole like an empty one. -/
theorem listing_ambiguous :
    (∃ x y, compile "1e400" .standard = .ok x ∧ compile "null" .standard = .ok y ∧
      x.listing = y.listing ∧ ∀ depth data w,
        (x.outcome depth data w).1 = some (.ok (.number (Binary64.infinity false))) ∧
          (y.outcome depth data w).1 = some (.ok .null)) ∧
    (∃ x y, compile "[,]" .standard = .ok x ∧ compile "[]" .standard = .ok y ∧
      x.listing = y.listing ∧ ∀ depth data w,
        (x.outcome depth data w).1 = some (.ok (.array w.nextReference [.undefined])) ∧
          (y.outcome depth data w).1 = some (.ok (.array w.nextReference []))) := by
  have hunbounded : Expr.parse "1e400" =
      .ok (.literal ⟨⟨0, 1, 1⟩, ⟨5, 1, 6⟩⟩ (.number (Binary64.infinity false))) := by
    with_unfolding_all rfl
  have hnull : Expr.parse "null" = .ok (.literal ⟨⟨0, 1, 1⟩, ⟨4, 1, 5⟩⟩ .null) := by
    with_unfolding_all rfl
  have hhole : Expr.parse "[,]" = .ok (.array ⟨⟨0, 1, 1⟩, ⟨3, 1, 4⟩⟩ [none]) := by
    with_unfolding_all rfl
  have hempty : Expr.parse "[]" = .ok (.array ⟨⟨0, 1, 1⟩, ⟨2, 1, 3⟩⟩ []) := by
    with_unfolding_all rfl
  constructor
  · refine ⟨_, _, compile_of_parse hunbounded, compile_of_parse hnull, ?_, fun depth data w => ?_⟩
    · decide +kernel
    · exact ⟨rfl, rfl⟩
  · refine ⟨_, _, compile_of_parse hhole, compile_of_parse hempty, ?_, fun depth data w => ?_⟩
    · decide +kernel
    · exact ⟨rfl, rfl⟩

end Expression

end ExprLang
