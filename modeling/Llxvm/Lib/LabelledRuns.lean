import Llxvm.Lib.LabelledCode
import Mathlib.Logic.Relation

/-!
# Runs of labelled code

Runs without exceptions on which no line has a choice.  Such a run can follow the steps of another
system, and a text that comes to its end has no other result.
-/

namespace LabelledCode.Machine

variable {ι L σ ε ρ : Type} {M : Machine ι L σ ε ρ} {all : List ι}

theorem at_of_eq {pre is : List ι} {i : ι} {l : L} (h : all = pre ++ i :: is)
    (hlabel : M.label i = some l) : M.At all l (i :: is) :=
  ⟨⟨pre, h.symm⟩, i, is, rfl, hlabel⟩

variable (M) in
/-- The line has this outcome, and no other one. -/
def Does (i : ι) (s : σ) (o : Outcome L σ ε ρ) : Prop := ∀ o', M.exec i s o' ↔ o' = o

theorem Does.exec {i : ι} {s : σ} {o : Outcome L σ ε ρ} (h : M.Does i s o) : M.exec i s o :=
  (h o).mpr rfl

variable (M all) in
/-- The text runs from one position to another one. -/
inductive Runs : List ι × σ → List ι × σ → Prop
  | refl (p : List ι × σ) : Runs p p
  | head_next {i : ι} {rest : List ι} {s s' : σ} {q : List ι × σ} (h : M.Does i s (.next s'))
      (hrest : Runs (rest, s') q) : Runs (i :: rest, s) q
  | head_jump {i : ι} {rest rest' : List ι} {s s' : σ} {l : L} {q : List ι × σ}
      (h : M.Does i s (.jump l s')) (hat : M.At all l rest') (hrest : Runs (rest', s') q) :
      Runs (i :: rest, s) q

namespace Runs

variable {p q r : List ι × σ}

theorem trans (h : M.Runs all p q) (h' : M.Runs all q r) : M.Runs all p r := by
  induction h with
  | refl p => exact h'
  | head_next hdoes _ ih => exact .head_next hdoes (ih h')
  | head_jump hdoes hat _ ih => exact .head_jump hdoes hat (ih h')

theorem next {i : ι} {s s' : σ} (h : M.Does i s (.next s')) (rest : List ι) :
    M.Runs all (i :: rest, s) (rest, s') :=
  .head_next h (.refl _)

theorem jump {i : ι} {s s' : σ} {l : L} (h : M.Does i s (.jump l s')) {rest rest' : List ι}
    (hat : M.At all l rest') : M.Runs all (i :: rest, s) (rest', s') :=
  .head_jump h hat (.refl _)

/-- The text follows another system whose steps it can follow. -/
theorem simulates {α : Type} {R : α → α → Prop} {follows : α → List ι × σ → Prop}
    (hstep : ∀ {a b p}, R a b → follows a p → ∃ q, M.Runs all p q ∧ follows b q) {a b : α}
    (h : Relation.ReflTransGen R a b) (ha : follows a p) :
    ∃ q, M.Runs all p q ∧ follows b q := by
  induction h with
  | refl => exact ⟨p, .refl p, ha⟩
  | tail _ hlast ih =>
      obtain ⟨q, hruns, hb⟩ := ih
      obtain ⟨r, hruns', hc⟩ := hstep hlast hb
      exact ⟨r, hruns.trans hruns', hc⟩

theorem exists_path (h : M.Runs all p q) : ∃ tr, M.Path all p tr q := by
  induction h with
  | refl p => exact ⟨[], .refl p⟩
  | head_next hdoes _ ih =>
      obtain ⟨tr, hpath⟩ := ih
      exact ⟨_, .head (.next hdoes.exec) hpath⟩
  | head_jump hdoes hat _ ih =>
      obtain ⟨tr, hpath⟩ := ih
      exact ⟨_, .head (.jump hdoes.exec hat) hpath⟩

variable {start : Option L} {s s' : σ} {rest is : List ι} {i : ι} {x : ρ}
  (h : M.Runs all (rest, s) (i :: is, s')) (hleave : M.Does i s' (.leave x))

include h hleave

theorem finishes (hstart : M.Start all start rest) :
    ∃ tr, M.Finishes all start s tr (.inl x) := by
  obtain ⟨tr, hpath⟩ := h.exists_path
  exact ⟨_, rest, _, tr, _, hstart, hpath, .leave hleave.exec, rfl⟩

variable (hnodup : (M.labels all).Nodup)

include hnodup

/-- Every path to an end goes where the run goes. -/
theorem ends_unique {q : List ι × σ} {tr tr' : List ι} {x' : ρ ⊕ (ε × σ)}
    (hpath : M.Path all (rest, s) tr q) (hends : M.Ends all q tr' x') : x' = .inl x := by
  generalize hp : (rest, s) = p at h hpath
  generalize hend : (i :: is, s') = p' at h
  induction h generalizing rest s tr with
  | refl p =>
      subst hend
      cases hpath with
      | refl =>
          cases hends with
          | leave hexec =>
              cases (hleave _).mp hexec
              rfl
          | throw hexec _ => cases (hleave _).mp hexec
      | head hstep _ => cases hstep <;> cases (hleave _).mp ‹_›
  | head_next hdoes _ ih =>
      cases hpath with
      | refl => cases hends <;> cases (hdoes _).mp ‹_›
      | head hstep hrest =>
          cases hstep with
          | next hexec =>
              cases (hdoes _).mp hexec
              exact ih rfl hrest hend
          | jump hexec _ => cases (hdoes _).mp hexec
          | throw hexec _ _ _ => cases (hdoes _).mp hexec
  | head_jump hdoes hat _ ih =>
      cases hpath with
      | refl => cases hends <;> cases (hdoes _).mp ‹_›
      | head hstep hrest =>
          cases hstep with
          | next hexec => cases (hdoes _).mp hexec
          | jump hexec hat' =>
              cases (hdoes _).mp hexec
              obtain rfl := hat.unique hnodup hat'
              exact ih rfl hrest hend
          | throw hexec _ _ _ => cases (hdoes _).mp hexec

theorem finishes_unique {tr : List ι} {x' : ρ ⊕ (ε × σ)}
    (hx : M.Finishes all start s tr x') (hstart : M.Start all start rest) : x' = .inl x := by
  obtain ⟨p, q, tr₁, tr₂, hp, hpath, hends, rfl⟩ := hx
  have heq : p = rest := by
    cases start with
    | none => exact hp.trans hstart.symm
    | some l => exact hp.unique hnodup hstart
  subst heq
  exact h.ends_unique hleave hnodup hpath hends

end Runs

end LabelledCode.Machine
