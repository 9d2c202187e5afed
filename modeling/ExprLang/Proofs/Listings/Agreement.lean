import ExprLang.Proofs.Listings.Decides
import ExprLang.Proofs.Listings.Texts
import ExprLang.Proofs.Positions

/-!
Trees that are written alike. They have the same code as far as numbers beyond the range of doubles,
which are written like null, and arrays of a single hole, which are written like empty ones, stand
at the same places in both.
-/
namespace ExprLang

namespace Expr

/-- A number beyond the range of doubles. -/
def isUnbounded : Expr → Bool
  | .literal _ (.number x) => !Binary64.isFinite x
  | _ => false

/-- An array of nothing but one hole. -/
def isLoneHole : Expr → Bool
  | .array _ [none] => true
  | _ => false

/-- What a listing does not show stands at the same places of the two trees. -/
def SamePlaces (e e' : Expr) : Prop :=
  ∀ path n n', e.at? path = some n → e'.at? path = some n' →
    n.isUnbounded = n'.isUnbounded ∧ n.isLoneHole = n'.isLoneHole

def SamePlacesAll (cs cs' : List Expr) : Prop :=
  ∀ (i : Nat) c c', cs[i]? = some c → cs'[i]? = some c' → SamePlaces c c'

variable {e e' c c' : Expr} {cs cs' : List Expr}

theorem SamePlaces.refl (e : Expr) : SamePlaces e e := by
  intro path n n' hn hn'
  cases hn.symm.trans hn'
  exact ⟨rfl, rfl⟩

theorem SamePlaces.root (h : SamePlaces e e') :
    e.isUnbounded = e'.isUnbounded ∧ e.isLoneHole = e'.isLoneHole :=
  h [] e e' rfl rfl

theorem SamePlaces.children (h : SamePlaces e e') : SamePlacesAll e.children e'.children := by
  intro i c c' hc hc' path n n' hn hn'
  refine h (i :: path) n n' ?_ ?_
  · rw [at?, hc]
    exact hn
  · rw [at?, hc']
    exact hn'

theorem SamePlaces.of_children (hunbounded : e.isUnbounded = e'.isUnbounded)
    (hhole : e.isLoneHole = e'.isLoneHole) (h : SamePlacesAll e.children e'.children) :
    SamePlaces e e' := by
  rintro (_ | ⟨i, path⟩) n n' hn hn'
  · cases hn
    cases hn'
    exact ⟨hunbounded, hhole⟩
  · rw [at?] at hn hn'
    obtain ⟨c, hc, hn⟩ := Option.bind_eq_some_iff.1 hn
    obtain ⟨c', hc', hn'⟩ := Option.bind_eq_some_iff.1 hn'
    exact h i c c' hc hc' path n n' hn hn'

theorem SamePlacesAll.nil : SamePlacesAll [] [] := nofun

theorem SamePlacesAll.cons (hc : SamePlaces c c') (hcs : SamePlacesAll cs cs') :
    SamePlacesAll (c :: cs) (c' :: cs')
  | 0, _, _, rfl, rfl => hc
  | i + 1, d, d', hd, hd' => hcs i d d' hd hd'

theorem SamePlacesAll.head (h : SamePlacesAll (c :: cs) (c' :: cs')) : SamePlaces c c' :=
  h 0 c c' rfl rfl

theorem SamePlacesAll.tail (h : SamePlacesAll (c :: cs) (c' :: cs')) : SamePlacesAll cs cs' :=
  fun i d d' hd hd' => h (i + 1) d d' hd hd'

theorem SamePlacesAll.append {ds ds' : List Expr} (h : SamePlacesAll (cs ++ ds) (cs' ++ ds'))
    (hlength : cs.length = cs'.length) : SamePlacesAll cs cs' ∧ SamePlacesAll ds ds' := by
  refine ⟨fun i c c' hc hc' => h i c c' ?_ ?_, fun i d d' hd hd' => h (cs.length + i) d d' ?_ ?_⟩
  · rw [List.getElem?_append_left (List.getElem?_eq_some_iff.1 hc).1, hc]
  · rw [List.getElem?_append_left (List.getElem?_eq_some_iff.1 hc').1, hc']
  · rw [List.getElem?_append_right (Nat.le_add_right _ _), Nat.add_sub_cancel_left, hd]
  · rw [hlength, List.getElem?_append_right (Nat.le_add_right _ _), Nat.add_sub_cancel_left, hd']

/-- The trees have the same text, and the same code wherever their listings begin, as far as what
the text does not show stands at the same places. -/
structure Agrees (e e' : Expr) : Prop where
  text : e.text = e'.text
  compile : SamePlaces e e' → ∀ start, e.compile start = e'.compile start

theorem Agrees.width (h : Agrees e e') : e.width = e'.width := by
  rw [width_eq, width_eq, h.text]

def AgreesOption : Option Expr → Option Expr → Prop
  | none, none => True
  | some e, some e' => Agrees e e'
  | _, _ => False

structure AgreesProperty (p p' : Property Expr) : Prop where
  key : p.key.text = p'.key.text
  value : Agrees p.value p'.value

def AgreesArgument : Argument Expr × Nat → Argument Expr × Nat → Prop
  | (.value e, _), (.value e', _) => Agrees e e'
  | (.placeholder _, _), (.placeholder _, _) => True
  | _, _ => False

structure AgreesStage (s s' : Stage Expr) : Prop where
  optional : s.optional = s'.optional
  body : Agrees s.body s'.body

structure AgreesDeclaration (d d' : Declaration Expr) : Prop where
  name : d.name.text = d'.name.text
  init : Agrees d.init d'.init

theorem compileProperties_eq {ps ps' : List (Property Expr)}
    (h : List.Forall₂ AgreesProperty ps ps')
    (hplaces : SamePlacesAll (ps.map (·.value)) (ps'.map (·.value))) (start : Nat) :
    compileProperties ps start = compileProperties ps' start := by
  induction h generalizing start with
  | nil => rfl
  | @cons p p' ps ps' hp _ ih =>
    obtain ⟨key, value, place⟩ := p
    obtain ⟨key', value', place'⟩ := p'
    have hkey : key.text = key'.text := hp.key
    have hvalue : Agrees value value' := hp.value
    simp only [compileProperties, hkey, hvalue.compile hplaces.head, hvalue.width,
      ih hplaces.tail]

theorem compileElements_eq {es es' : List (Option Expr)} (h : List.Forall₂ AgreesOption es es')
    (hplaces : SamePlacesAll (es.filterMap id) (es'.filterMap id)) (start : Nat) :
    compileElements es start = compileElements es' start := by
  induction h generalizing start with
  | nil => rfl
  | @cons e e' es es' he _ ih =>
    rcases e with _ | e <;> rcases e' with _ | e' <;> try exact he.elim
    · simp only [compileElements, compileElement, elementLayout, ih hplaces]
    · have he : Agrees e e' := he
      have hwidth : Fragment.size e.layout = Fragment.size e'.layout := he.width
      have hplaces : SamePlacesAll (e :: es.filterMap id) (e' :: es'.filterMap id) := hplaces
      simp only [compileElements, compileElement, elementLayout, he.compile hplaces.head,
        hwidth, ih hplaces.tail]

theorem compileStages_eq {ss ss' : List (Stage Expr)} (h : List.Forall₂ AgreesStage ss ss')
    (hplaces : SamePlacesAll (ss.map (·.body)) (ss'.map (·.body))) (start : Nat) :
    compileStages ss start = compileStages ss' start := by
  induction h generalizing start with
  | nil => rfl
  | @cons s s' ss ss' hs _ ih =>
    obtain ⟨optional, body⟩ := s
    obtain ⟨optional', body'⟩ := s'
    obtain rfl : optional = optional' := hs.optional
    have hbody : Agrees body body' := hs.body
    simp only [compileStages, hbody.compile hplaces.head, hbody.width, ih hplaces.tail]

theorem compileArguments_eq {as as' : List (Argument Expr)} {i : Nat}
    (h : List.Forall₂ AgreesArgument (as.zipIdx i) (as'.zipIdx i))
    (hplaces : SamePlacesAll (as.filterMap (·.value?)) (as'.filterMap (·.value?))) (start : Nat) :
    compileArguments as i start = compileArguments as' i start := by
  induction as generalizing as' i start with
  | nil =>
    cases as' with
    | nil => rfl
    | cons a' as' => nomatch h
  | cons a as ih =>
    rcases as' with _ | ⟨a', as'⟩
    · nomatch h
    rw [List.zipIdx_cons, List.zipIdx_cons] at h
    obtain ⟨ha, hrest⟩ := List.forall₂_cons.1 h
    rcases a with e | place <;> rcases a' with e' | place' <;> try exact ha.elim
    · have ha : Agrees e e' := ha
      have hwidth : Fragment.size e.layout = Fragment.size e'.layout := ha.width
      have hplaces :
          SamePlacesAll (e :: as.filterMap (·.value?)) (e' :: as'.filterMap (·.value?)) := hplaces
      simp only [compileArguments, compileArgument, argumentLayout, ha.compile hplaces.head,
        hwidth, ih hrest hplaces.tail]
    · simp only [compileArguments, compileArgument, argumentLayout, Fragment.size, ih hrest hplaces]

theorem compileDeclarations_eq {ds ds' : List (Declaration Expr)}
    (h : List.Forall₂ AgreesDeclaration ds ds')
    (hplaces : SamePlacesAll (ds.map (·.init)) (ds'.map (·.init))) (start : Nat) (body : Code) :
    compileDeclarations ds start body = compileDeclarations ds' start body := by
  induction h generalizing start with
  | nil => rfl
  | @cons d d' ds ds' hd _ ih =>
    obtain ⟨name, init, span⟩ := d
    obtain ⟨name', init', span'⟩ := d'
    have hname : name.text = name'.text := hd.name
    have hinit : Agrees init init' := hd.init
    simp only [compileDeclarations, hname, hinit.compile hplaces.head, hinit.width,
      ih hplaces.tail]

end Expr

end ExprLang
