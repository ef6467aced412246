import Mathlib.Data.List.Basic
import Mathlib.Data.List.Nodup
import Mathlib.Logic.Function.Basic

/-!
# Escapes to frames

A stack of frames that hold tokens for their sites.  An escape with a token drops all frames inside
of the innermost one that holds it.  If tokens are never given twice, then the frame and the site
that a token was given to are found exactly if the frame has not been given another one for that
site since.
-/

namespace Escapes

/-- The frames in a stack have different numbers `id`. -/
structure Frame (ι σ τ : Type) where
  id : ι
  holds : σ → Option τ

/-- A token that a frame was given for a site. -/
structure Mark (ι σ τ : Type) where
  id : ι
  site : σ
  token : τ

variable {ι σ τ : Type} [DecidableEq ι] [DecidableEq σ]

def Frame.give (fr : Frame ι σ τ) (s : σ) (t : τ) : Frame ι σ τ :=
  { fr with holds := Function.update fr.holds s (some t) }

/-- The frame is the innermost one that holds the token, and has it for the site `s`. -/
def Lands (frames : List (Frame ι σ τ)) (t : τ) (fr : Frame ι σ τ) (s : σ)
    (outer : List (Frame ι σ τ)) : Prop :=
  ∃ inner, frames = inner ++ fr :: outer ∧ (∀ g ∈ inner, ∀ s, g.holds s ≠ some t) ∧
    fr.holds s = some t

/-- The stacks of frames that are reached, with the marks so far, the last one first. -/
inductive Run : List (Frame ι σ τ) → List (Mark ι σ τ) → Prop
  | start : Run [] []
  | enter {frames : List (Frame ι σ τ)} {marks : List (Mark ι σ τ)} {id : ι} (h : Run frames marks)
      (hframes : ∀ fr ∈ frames, fr.id ≠ id) (hmarks : ∀ k ∈ marks, k.id ≠ id) :
      Run (⟨id, fun _ => none⟩ :: frames) marks
  | leave {fr : Frame ι σ τ} {frames : List (Frame ι σ τ)} {marks : List (Mark ι σ τ)}
      (h : Run (fr :: frames) marks) : Run frames marks
  | mark {fr : Frame ι σ τ} {frames : List (Frame ι σ τ)} {marks : List (Mark ι σ τ)} {s : σ}
      {t : τ} (h : Run (fr :: frames) marks) (hfresh : ∀ k ∈ marks, k.token ≠ t) :
      Run (fr.give s t :: frames) (⟨fr.id, s, t⟩ :: marks)
  | escape {frames outer : List (Frame ι σ τ)} {marks : List (Mark ι σ τ)} {fr : Frame ι σ τ}
      {s : σ} {t : τ} (h : Run frames marks) (hlands : Lands frames t fr s outer) :
      Run (fr :: outer) marks

/-- The last token that a frame was given for a site. -/
def latest (marks : List (Mark ι σ τ)) (id : ι) (s : σ) : Option τ :=
  (marks.find? fun k => k.id = id ∧ k.site = s).map Mark.token

/-- A frame holds what it was given last. -/
structure Inv (frames : List (Frame ι σ τ)) (marks : List (Mark ι σ τ)) : Prop where
  ids : (frames.map Frame.id).Nodup
  tokens : (marks.map Mark.token).Nodup
  holds : ∀ fr ∈ frames, ∀ s, fr.holds s = latest marks fr.id s

variable {frames inner outer : List (Frame ι σ τ)} {marks : List (Mark ι σ τ)}
  {fr : Frame ι σ τ} {k : Mark ι σ τ} {s : σ} {t : τ}

theorem latest_cons_of_ne {id : ι} (h : ¬ (k.id = id ∧ k.site = s)) :
    latest (k :: marks) id s = latest marks id s := by
  unfold latest
  rw [List.find?_cons_of_neg (by simpa using h)]

theorem latest_cons_self : latest (k :: marks) k.id k.site = some k.token := by
  simp [latest]

theorem exists_of_latest {id : ι} (h : latest marks id s = some t) :
    ∃ k ∈ marks, k.id = id ∧ k.site = s ∧ k.token = t := by
  obtain ⟨k, hk, rfl⟩ := Option.map_eq_some_iff.mp h
  have hid : k.id = id ∧ k.site = s := by simpa using List.find?_some hk
  exact ⟨k, List.mem_of_find?_eq_some hk, hid.1, hid.2, rfl⟩

theorem Inv.sublist {frames' : List (Frame ι σ τ)} (h : Inv frames marks)
    (hsub : frames'.Sublist frames) : Inv frames' marks :=
  ⟨h.ids.sublist (hsub.map _), h.tokens, fun g hg => h.holds g (hsub.subset hg)⟩

theorem Run.inv (h : Run frames marks) : Inv frames marks := by
  induction h with
  | start => exact ⟨.nil, .nil, by simp⟩
  | @enter frames marks id h hframes hmarks ih =>
      refine ⟨List.nodup_cons.mpr ⟨fun hid => ?_, ih.ids⟩, ih.tokens, fun fr hfr s => ?_⟩
      · obtain ⟨fr, hfr, heq⟩ := List.mem_map.mp hid
        exact hframes fr hfr heq
      · rcases List.mem_cons.mp hfr with rfl | hfr
        · cases hlatest : latest marks id s with
          | none => rfl
          | some t =>
              obtain ⟨k, hk, hid, -⟩ := exists_of_latest hlatest
              exact (hmarks k hk hid).elim
        · exact ih.holds fr hfr s
  | leave h ih => exact ih.sublist (List.sublist_cons_self _ _)
  | @mark fr frames marks s t h hfresh ih =>
      refine ⟨ih.ids, List.nodup_cons.mpr ⟨fun ht => ?_, ih.tokens⟩, fun g hg s' => ?_⟩
      · obtain ⟨k, hk, heq⟩ := List.mem_map.mp ht
        exact hfresh k hk heq
      · rcases List.mem_cons.mp hg with rfl | hg
        · by_cases hs : s' = s
          · subst hs
            have hself : latest (⟨fr.id, s', t⟩ :: marks) fr.id s' = some t :=
              latest_cons_self (k := ⟨fr.id, s', t⟩)
            exact (Function.update_self _ _ _).trans hself.symm
          · have hne : ¬ (fr.id = fr.id ∧ s = s') := fun h => hs h.2.symm
            rw [latest_cons_of_ne hne]
            exact (Function.update_of_ne hs _ _).trans (ih.holds fr List.mem_cons_self s')
        · -- the other frames have other numbers
          have hid : fr.id ≠ g.id := by
            intro heq
            exact (List.nodup_cons.mp ih.ids).1 (List.mem_map.mpr ⟨g, hg, heq.symm⟩)
          rw [latest_cons_of_ne fun h => hid h.1]
          exact ih.holds g (List.mem_cons_of_mem _ hg) s'
  | escape h hlands ih =>
      obtain ⟨inner, rfl, -⟩ := hlands
      exact ih.sublist (List.sublist_append_right _ _)

/-- An escape comes to the frame and the site that the token was given to. -/
theorem Inv.lands (h : Inv frames marks) (hk : k ∈ marks)
    (hlands : Lands frames k.token fr s outer) : fr.id = k.id ∧ s = k.site := by
  obtain ⟨inner, rfl, -, hholds⟩ := hlands
  rw [h.holds fr (by simp)] at hholds
  obtain ⟨j, hj, hid, hsite, htoken⟩ := exists_of_latest hholds
  obtain rfl := List.inj_on_of_nodup_map h.tokens hj hk htoken
  exact ⟨hid.symm, hsite.symm⟩

/-- An escape with the token of a frame comes back to it exactly if the frame has not been given
another one for the same site since. -/
theorem Run.lands_iff (h : Run frames marks) (hk : k ∈ marks)
    (hframes : frames = inner ++ fr :: outer) (hid : fr.id = k.id) :
    Lands frames k.token fr k.site outer ↔ latest marks k.id k.site = some k.token := by
  have hinv := h.inv
  rw [← hid, ← hinv.holds fr (by simp [hframes])]
  constructor
  · rintro ⟨-, -, -, hholds⟩
    exact hholds
  · intro hholds
    refine ⟨inner, hframes, fun g hg s hs => ?_, hholds⟩
    -- no other frame has been given the token
    obtain ⟨j, hj, hgid, -, htoken⟩ :=
      exists_of_latest ((hinv.holds g (by simp [hframes, hg]) s).symm.trans hs)
    obtain rfl := List.inj_on_of_nodup_map hinv.tokens hj hk htoken
    have hids := hinv.ids
    rw [hframes, List.map_append, List.map_cons] at hids
    exact (List.disjoint_of_nodup_append hids) (List.mem_map_of_mem hg)
      (by simp [hid, hgid])

end Escapes
