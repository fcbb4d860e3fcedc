import Mathlib.Tactic.Common

/-!
A task is a program over atomic operations: a tree whose inner nodes are
operations and whose branches are the answers an operation may return.
Between two operations a task only computes, so the operations are exactly
the points at which other tasks can be scheduled.

`wp` is the weakest precondition of such a program when it runs on a state of
its own. Besides the postcondition it takes a guarantee `G`, a relation that
every operation that changes the state has to respect; a guarantee is what the
rest of the system may rely on at the moments between two operations.
-/

namespace Execra

/-- Programs over the operations `Op`, where `o : Op` is answered by a value
of `Ans o`. -/
inductive Program (Op : Type) (Ans : Op → Type) (α : Type) : Type where
  | ret (a : α)
  | op (o : Op) (k : Ans o → Program Op Ans α)

namespace Program

variable {Op : Type} {Ans : Op → Type} {α β : Type}

def bind : Program Op Ans α → (α → Program Op Ans β) → Program Op Ans β
  | .ret a, f => f a
  | .op o k, f => .op o (fun a => (k a).bind f)

instance : Monad (Program Op Ans) where
  pure := .ret
  bind := Program.bind

theorem bind_assoc {γ : Type} (p : Program Op Ans α) (f : α → Program Op Ans β)
    (g : β → Program Op Ans γ) : (p >>= f) >>= g = p >>= (fun a => f a >>= g) := by
  induction p with
  | ret a => rfl
  | op o k ih => exact congrArg (Program.op o) (funext ih)

/-- Every operation the program may perform satisfies `P`, whatever it is
answered. -/
def Every (P : Op → Prop) : Program Op Ans α → Prop
  | .ret _ => True
  | .op o k => P o ∧ ∀ a, (k a).Every P

@[simp] theorem every_ret {P : Op → Prop} (a : α) : (ret a : Program Op Ans α).Every P := trivial

@[simp] theorem every_pure {P : Op → Prop} (a : α) : (pure a : Program Op Ans α).Every P := trivial

theorem every_bind {P : Op → Prop} {p : Program Op Ans α} {f : α → Program Op Ans β}
    (hp : p.Every P) (hf : ∀ a, (f a).Every P) : (p >>= f).Every P := by
  induction p with
  | ret a => exact hf a
  | op o k ih => exact ⟨hp.1, fun a => ih a (hp.2 a)⟩

theorem Every.mono {P Q : Op → Prop} {p : Program Op Ans α} (h : p.Every P)
    (hPQ : ∀ o, P o → Q o) : p.Every Q := by
  induction p with
  | ret a => trivial
  | op o k ih => exact ⟨hPQ o h.1, fun a => ih a (h.2 a)⟩

section WeakestPrecondition

variable {W σ : Type}

/-- A step respects a guarantee that relates its two states, and leaving the
state alone respects every guarantee. -/
def Respects (G : σ → σ → Prop) (s t : σ) : Prop := t = s ∨ G s t

variable (act : W → (o : Op) → σ → Ans o × σ) (G : σ → σ → Prop)

/-- `wp p Q s`: from `s`, whatever the world answers, every operation of `p`
respects the guarantee and the result satisfies `Q`. -/
def wp : Program Op Ans α → (α → σ → Prop) → σ → Prop
  | .ret a, Q, s => Q a s
  | .op o k, Q, s => ∀ w,
      Respects G s (act w o s).2 ∧ (k (act w o s).1).wp Q (act w o s).2

variable {act G}

@[simp] theorem respects_self (s : σ) : Respects G s s := Or.inl rfl

@[simp] theorem respects_true (s t : σ) : Respects (fun _ _ => True) s t :=
  Or.inr trivial

theorem Respects.mono {G' : σ → σ → Prop} (hG : ∀ s t, G s t → G' s t) {s t : σ}
    (h : Respects G s t) : Respects G' s t := h.imp_right (hG s t)

@[simp] theorem wp_ret (a : α) (Q : α → σ → Prop) (s : σ) :
    (ret a : Program Op Ans α).wp act G Q s ↔ Q a s := Iff.rfl

@[simp] theorem wp_pure (a : α) (Q : α → σ → Prop) (s : σ) :
    (pure a : Program Op Ans α).wp act G Q s ↔ Q a s := Iff.rfl

theorem wp_op (o : Op) (k : Ans o → Program Op Ans α) (Q : α → σ → Prop) (s : σ) :
    (op o k).wp act G Q s ↔ ∀ w,
      Respects G s (act w o s).2 ∧ (k (act w o s).1).wp act G Q (act w o s).2 := Iff.rfl

theorem wp_bind_eq (p : Program Op Ans α) (f : α → Program Op Ans β)
    (Q : β → σ → Prop) (s : σ) :
    (p.bind f).wp act G Q s ↔
      p.wp act G (fun a t => (f a).wp act G Q t) s := by
  induction p generalizing s with
  | ret a => rfl
  | op o k ih =>
      simp only [bind, wp_op]
      exact forall_congr' (fun w => and_congr_right (fun _ => ih _ _))

@[simp] theorem wp_bind (p : Program Op Ans α) (f : α → Program Op Ans β)
    (Q : β → σ → Prop) (s : σ) :
    (p >>= f).wp act G Q s ↔
      p.wp act G (fun a t => (f a).wp act G Q t) s :=
  wp_bind_eq p f Q s

/-- A stronger postcondition and a stronger guarantee are enough. -/
theorem wp_mono {G' : σ → σ → Prop} (hG : ∀ s t, G s t → G' s t)
    {Q Q' : α → σ → Prop} (hQ : ∀ a s, Q a s → Q' a s) (p : Program Op Ans α)
    (s : σ) (h : p.wp act G Q s) : p.wp act G' Q' s := by
  induction p generalizing s with
  | ret a => exact hQ a s h
  | op o k ih =>
      intro w
      exact ⟨(h w).1.mono hG, ih _ _ (h w).2⟩

/-- The rule of consequence for the postcondition. -/
theorem wp_consequence {Q Q' : α → σ → Prop} (p : Program Op Ans α) (s : σ)
    (h : p.wp act G Q s) (hQ : ∀ a t, Q a t → Q' a t) : p.wp act G Q' s :=
  wp_mono (fun _ _ h => h) hQ p s h

/-- An assertion that every change admitted by the guarantee `M` keeps holds
at the end, and at every moment a stronger guarantee may rely on it. -/
theorem wp_invariant {M : σ → σ → Prop} {I : σ → Prop}
    (hkeep : ∀ s t, I s → M s t → G s t ∧ I t) {Q : α → σ → Prop}
    (p : Program Op Ans α) (s : σ) (h : p.wp act M Q s) (hs : I s) :
    p.wp act G (fun a t => Q a t ∧ I t) s := by
  induction p generalizing s with
  | ret a => exact ⟨h, hs⟩
  | op o k ih =>
      intro w
      obtain ⟨hstep, hrest⟩ := h w
      rcases hstep with heq | hM
      · have hs' : I (act w o s).2 := by rw [heq]; exact hs
        exact ⟨Or.inl heq, ih _ _ hrest hs'⟩
      · obtain ⟨hG, ht⟩ := hkeep _ _ hs hM
        exact ⟨Or.inr hG, ih _ _ hrest ht⟩

/-- What no operation changes, no program changes. -/
theorem wp_frame {γ : Type} {f : σ → γ} (hf : ∀ w o s, f (act w o s).2 = f s)
    (p : Program Op Ans α) (s : σ) :
    p.wp act (fun _ _ => True) (fun _ t => f t = f s) s := by
  induction p generalizing s with
  | ret a => rfl
  | op o k ih =>
      intro w
      have hrest := ih (act w o s).1 (act w o s).2
      rw [hf w o s] at hrest
      exact ⟨respects_true _ _, hrest⟩

/-- Sequencing through an intermediate assertion. -/
theorem wp_seq {Q : α → σ → Prop} {R : β → σ → Prop} (p : Program Op Ans α)
    (f : α → Program Op Ans β) (s : σ) (hp : p.wp act G Q s)
    (hf : ∀ a t, Q a t → (f a).wp act G R t) : (p >>= f).wp act G R s :=
  (wp_bind p f R s).mpr (wp_consequence p s hp hf)

/-- What every operation keeps, every program keeps. -/
theorem wp_kept {I : σ → Prop} (hkeep : ∀ w o s, I s → I (act w o s).2)
    (p : Program Op Ans α) (s : σ) (hs : I s) :
    p.wp act (fun _ _ => True) (fun _ => I) s := by
  induction p generalizing s with
  | ret a => exact hs
  | op o k ih => exact fun w => ⟨respects_true _ _, ih _ _ (hkeep w o s hs)⟩

end WeakestPrecondition

section Yields

/-- What a program returns, for some answers to its operations. -/
inductive Yields : Program Op Ans α → α → Prop
  | ret (a : α) : Yields (.ret a) a
  | op (o : Op) (k : Ans o → Program Op Ans α) (ans : Ans o) {a : α} (h : (k ans).Yields a) :
      Yields (.op o k) a

theorem yields_ret {a b : α} (h : (ret a : Program Op Ans α).Yields b) : b = a := by
  cases h
  rfl

theorem Yields.bind {p : Program Op Ans α} {f : α → Program Op Ans β} {b : β}
    (h : (p >>= f).Yields b) : ∃ a, p.Yields a ∧ (f a).Yields b := by
  induction p with
  | ret a => exact ⟨a, .ret a, h⟩
  | op o k ih =>
      cases h with
      | op _ _ ans h =>
          obtain ⟨a, ha, hb⟩ := ih ans h
          exact ⟨a, .op o k ans ha, hb⟩

end Yields

section Along

variable {W σ : Type} (act : W → (o : Op) → σ → Ans o × σ)

/-- `along A Q p s`: from `s`, whatever the world answers, `A` holds of what is
left of `p` and of the state whenever an operation is about to run, and the
result satisfies `Q`. Unlike the guarantee of `wp`, `A` sees the program. -/
def along (A : Program Op Ans α → σ → Prop) (Q : α → σ → Prop) :
    Program Op Ans α → σ → Prop
  | .ret a, s => Q a s
  | .op o k, s =>
      A (.op o k) s ∧ ∀ w, along A Q (k (act w o s).1) (act w o s).2

variable {act}

/-- What is asserted of the first part of a program has to hold of that part
followed by the rest. -/
theorem along_bind {A : Program Op Ans α → σ → Prop} {B : Program Op Ans β → σ → Prop}
    {Q : β → σ → Prop} {f : α → Program Op Ans β} (hAB : ∀ o k s, A (op o k) s → B (op o k >>= f) s)
    (p : Program Op Ans α) (s : σ)
    (h : p.along act A (fun a t => (f a).along act B Q t) s) :
    (p >>= f).along act B Q s := by
  induction p generalizing s with
  | ret a => exact h
  | op o k ih => exact ⟨hAB o k s h.1, fun w => ih _ _ (h.2 w)⟩

/-- The rule of consequence. -/
theorem along_mono {A B : Program Op Ans α → σ → Prop} {Q R : α → σ → Prop}
    (hAB : ∀ p s, A p s → B p s) (hQR : ∀ a s, Q a s → R a s)
    (p : Program Op Ans α) (s : σ) (h : p.along act A Q s) : p.along act B R s := by
  induction p generalizing s with
  | ret a => exact hQR a s h
  | op o k ih => exact ⟨hAB _ _ h.1, fun w => ih _ _ (h.2 w)⟩

end Along

section Within

variable {A : (o : Op) → Ans o → Prop} {P : Op → Prop}

/-- `Within A P Q p`: as long as the answers satisfy `A`, every operation of `p` satisfies
`P` and the result satisfies `Q`. -/
def Within (A : (o : Op) → Ans o → Prop) (P : Op → Prop) (Q : α → Prop) :
    Program Op Ans α → Prop
  | .ret a => Q a
  | .op o k => P o ∧ ∀ a, A o a → Within A P Q (k a)

theorem Within.bind {Q : α → Prop} {R : β → Prop} {p : Program Op Ans α}
    {f : α → Program Op Ans β} (hp : p.Within A P Q) (hf : ∀ a, Q a → (f a).Within A P R) :
    (p >>= f).Within A P R := by
  induction p with
  | ret a => exact hf a hp
  | op o k ih => exact ⟨hp.1, fun a ha => ih a (hp.2 a ha)⟩

end Within

end Program

end Execra
