import ExprLang.Proofs.Requests

/-!
Two runs side by side. One computation simulates another when both do the same on stores that differ
only in what their functions stand for: `φ` translates the functions of the first run into those of
the second, and `I` holds of every function of the first.
-/
namespace ExprLang

variable {β π γ ρ α α' δ δ' ε ε' ι : Type}

namespace Store

def map (φ : Callable β π → Callable γ ρ) (w : Store β π) : Store γ ρ :=
  ⟨w.functions.map φ, w.nextReference, w.cells, w.events⟩

def All (I : Callable β π → Prop) (w : Store β π) : Prop := ∀ c ∈ w.functions, I c

theorem all_addFunction {I : Callable β π → Prop} {w : Store β π} {c : Callable β π}
    (hw : w.All I) (hc : I c) : (w.addFunction c).2.All I := by
  intro d hd
  rcases Array.mem_push.1 hd with h | rfl
  · exact hw d h
  · exact hc

theorem map_addFunction (φ : Callable β π → Callable γ ρ) (w : Store β π) (c : Callable β π) :
    (w.map φ).addFunction (φ c) = ((w.addFunction c).1, (w.addFunction c).2.map φ) := by
  simp only [addFunction, map, Array.size_map, Array.map_push]

end Store

namespace Run

/-- From stores that correspond, the computations go to stores that correspond, with results
related by `V`. -/
def Simulates (φ : Callable β π → Callable γ ρ) (I : Callable β π → Prop) (V : α → α' → Prop)
    (m : Run β π α) (n : Run γ ρ α') : Prop :=
  ∀ w : Store β π, w.All I →
    Option.Rel V (m w).1 (n (w.map φ)).1 ∧ (n (w.map φ)).2 = (m w).2.map φ ∧ (m w).2.All I

namespace Simulates

variable {φ : Callable β π → Callable γ ρ} {I : Callable β π → Prop} {V V' : α → α' → Prop}
  {W : δ → δ' → Prop}

theorem pure {a : α} {a' : α'} (h : V a a') : Simulates φ I V (Pure.pure a) (Pure.pure a') :=
  fun _ hw => ⟨.some h, rfl, hw⟩

theorem tooDeep : Simulates φ I V Run.tooDeep Run.tooDeep := fun _ hw => ⟨.none, rfl, hw⟩

theorem bind {m : Run β π α} {n : Run γ ρ α'} {f : α → Run β π δ} {g : α' → Run γ ρ δ'}
    (h : Simulates φ I V m n) (k : ∀ a a', V a a' → Simulates φ I W (f a) (g a')) :
    Simulates φ I W (m >>= f) (n >>= g) := by
  intro w hw
  have hmn := h w hw
  rw [bind_apply, bind_apply]
  rcases hm : m w with ⟨r, u⟩
  rcases hn : n (w.map φ) with ⟨r', u'⟩
  rw [hm, hn] at hmn
  obtain ⟨hr, rfl, hu⟩ := hmn
  cases hr with
  | none => exact ⟨.none, rfl, hu⟩
  | some hv => exact k _ _ hv u hu

theorem mono {m : Run β π α} {n : Run γ ρ α'} (h : Simulates φ I V m n)
    (hV : ∀ a a', V a a' → V' a a') : Simulates φ I V' m n := by
  intro w hw
  obtain ⟨hr, hs⟩ := h w hw
  refine ⟨?_, hs⟩
  generalize (m w).1 = r, (n (w.map φ)).1 = r' at hr
  cases hr with
  | none => exact .none
  | some hv => exact .some (hV _ _ hv)

theorem modifyGet {f : Store β π → α × Store β π} {g : Store γ ρ → α' × Store γ ρ}
    (h : ∀ w, w.All I → V (f w).1 (g (w.map φ)).1 ∧ (g (w.map φ)).2 = (f w).2.map φ ∧
      (f w).2.All I) :
    Simulates φ I V (MonadStateOf.modifyGet f : Run β π α) (MonadStateOf.modifyGet g) :=
  fun w hw => ⟨.some (h w hw).1, (h w hw).2⟩

theorem note (e : Event) : Simulates φ I Eq (Run.note e) (Run.note e) :=
  modifyGet fun _ hw => ⟨rfl, rfl, hw⟩

theorem reference : Simulates φ I Eq Run.reference Run.reference :=
  modifyGet fun _ hw => ⟨rfl, rfl, hw⟩

theorem load (cell : Nat) : Simulates φ I Eq (Run.load cell) (Run.load cell) :=
  fun _ hw => ⟨.some rfl, rfl, hw⟩

theorem save (cell : Nat) (v : Value) :
    Simulates φ I Eq (Run.save cell v) (Run.save cell v) :=
  modifyGet fun _ hw => ⟨rfl, rfl, hw⟩

theorem newFunction {c : Callable β π} {c' : Callable γ ρ} (hc : I c) (hφ : c' = φ c) :
    Simulates φ I Eq (Run.newFunction c) (Run.newFunction c') := by
  subst hφ
  refine modifyGet fun w hw => ?_
  rw [w.map_addFunction φ c]
  exact ⟨rfl, rfl, w.all_addFunction hw hc⟩

theorem callable? (h : Nat) :
    Simulates φ I (fun o o' => o' = o.map φ ∧ ∀ c ∈ o, I c) (Run.callable? h)
      (Run.callable? h) := by
  intro w hw
  refine ⟨.some ⟨?_, ?_⟩, rfl, hw⟩
  · exact Array.getElem?_map
  · exact fun c hc => hw c (Array.mem_of_getElem? hc)

/-- An action does the same in both runs when the functions it makes are kept by `I` and stand for
the same in both. -/
theorem perform {call : Value → List Value → Run β π (Except Fault Value)}
    {call' : Value → List Value → Run γ ρ (Except Fault Value)}
    {supply : ι → Value → Run β π (Except Fault Value)}
    {supply' : ι → Value → Run γ ρ (Except Fault Value)}
    (hcall : ∀ f vs, Simulates φ I Eq (call f vs) (call' f vs))
    (hsupply : ∀ i v, Simulates φ I Eq (supply i v) (supply' i v))
    (hhost : ∀ name f, φ (.host name f) = .host name f)
    {P : HostFunction → Prop} (hP : ∀ name f, P f → I (.host name f))
    {Q : α → Prop} {a : Action ι α} (ha : a.All P Q) :
    Simulates φ I (fun b b' => b = b' ∧ Q b) (a.perform call supply)
      (a.perform call' supply') := by
  induction ha with
  | answer hQ => exact pure ⟨rfl, hQ⟩
  | call _ ih => exact bind (hcall _ _) fun r _ h => h ▸ ih r
  | run _ ih => exact bind (hsupply _ _) fun r _ h => h ▸ ih r
  | fresh _ ih => exact bind reference fun r _ h => h ▸ ih r
  | make hf _ ih => exact bind (newFunction (hP _ _ hf) (hhost _ _).symm) fun v _ h => h ▸ ih v
  | load _ ih => exact bind (load _) fun v _ h => h ▸ ih v
  | save _ ih => exact bind (save _ _) fun _ _ _ => ih

end Simulates

end Run

/-- Equal values, or failures related by `E`. -/
inductive Agree (E : ε → ε' → Prop) : Except ε α → Except ε' α → Prop where
  | ok (a : α) : Agree E (.ok a) (.ok a)
  | error {e : ε} {e' : ε'} (h : E e e') : Agree E (.error e) (.error e')

/-- The same for computations that can fail: their values are equal and their failures related. -/
def Simulates (φ : Callable β π → Callable γ ρ) (I : Callable β π → Prop) (E : ε → ε' → Prop)
    (m : ExceptT ε (Run β π) α) (n : ExceptT ε' (Run γ ρ) α) : Prop :=
  Run.Simulates φ I (Agree E) m.run n.run

namespace Simulates

variable {φ : Callable β π → Callable γ ρ} {I : Callable β π → Prop} {E : ε → ε' → Prop}

theorem pure (a : α) : Simulates φ I E (Pure.pure a) (Pure.pure a) := Run.Simulates.pure (.ok a)

theorem throw {e : ε} {e' : ε'} (h : E e e') :
    Simulates φ I E (α := α) (MonadExcept.throw e) (MonadExcept.throw e') :=
  Run.Simulates.pure (.error h)

theorem lift {m : Run β π α} {n : Run γ ρ α} (h : Run.Simulates φ I Eq m n) :
    Simulates φ I E (ExceptT.lift m) (ExceptT.lift n) :=
  h.bind fun a _ h => h ▸ Run.Simulates.pure (.ok a)

theorem mono {E' : ε → ε' → Prop} {m : ExceptT ε (Run β π) α} {n : ExceptT ε' (Run γ ρ) α}
    (h : Simulates φ I E m n) (hE : ∀ e e', E e e' → E' e e') : Simulates φ I E' m n := by
  refine Run.Simulates.mono h fun r r' hr => ?_
  cases hr with
  | ok a => exact .ok a
  | error he => exact .error (hE _ _ he)

theorem bind {m : ExceptT ε (Run β π) α} {n : ExceptT ε' (Run γ ρ) α}
    {f : α → ExceptT ε (Run β π) δ} {g : α → ExceptT ε' (Run γ ρ) δ}
    (h : Simulates φ I E m n) (k : ∀ a, Simulates φ I E (f a) (g a)) :
    Simulates φ I E (m >>= f) (n >>= g) := by
  refine Run.Simulates.bind h fun r r' hr => ?_
  cases hr with
  | ok a => exact k a
  | error he => exact Run.Simulates.pure (.error he)

end Simulates

end ExprLang
