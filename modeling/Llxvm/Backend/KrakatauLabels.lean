import Mathlib.Data.List.TakeWhile
import Llxvm.Backend.Emission

/-!
# Labels for the Krakatau assembler

`printLabel` puts `L_` before a label that does not begin with it.  The labels of blocks, `select`s
and rewritten branches have it from the start; those of the handler and of the calls of `setjmp` are
named without it.
-/

namespace Llxvm.Backend

open Llxvm.Jvm

/-! ## Texts -/

/-- The names of labels, as the jumps have them. -/
def labelName (opts : GenerationOpts) (number : ℕ → ℕ) : Label → String
  | .block b => (if opts.useKrakatau then "L_label" else "label") ++ toString (number b)
  | .phi b uid => (if opts.useKrakatau then "L_label" else "label") ++ toString (number b) ++
      "_phi" ++ toString uid
  | .select uid second => (if opts.useKrakatau then "L_select" else "select") ++ toString uid ++
      (if second then "b" else "a")
  | .br id => (if opts.useKrakatau then "L_lbl_br_" else "lbl_br_") ++ toString id
  | .setjmp var => "setjmp$" ++ toString var
  | .beginMethod => "begin_method"
  | .catchJump => "catch_jump"
  | .endMethod => "end_method"

def startsWith (s₁ s₂ : String) : Bool := s₁.toList.take s₂.length = s₂.toList

/-- What is printed where a label is defined. -/
def printedLabel (opts : GenerationOpts) (label : String) : String :=
  if !opts.useKrakatau then label
  else if startsWith label "L_" then label else "L_" ++ label

/-- The labels that are named as they are printed. -/
def hasPrintedName : Label → Bool
  | .block _ => true
  | .phi _ _ => true
  | .select _ _ => true
  | .br _ => true
  | _ => false

section texts

variable {opts : GenerationOpts} (hk : opts.useKrakatau = true) (number : ℕ → ℕ)

include hk

theorem labelName_eq (l : Label) : labelName opts number l =
    (if hasPrintedName l then "L_" else "") ++ labelText number l := by
  cases l <;> simp [labelName, labelText, hasPrintedName, hk, ← String.append_assoc]

omit hk in
theorem startsWith_append (s₁ s₂ : String) : startsWith (s₁ ++ s₂) s₁ = true := by
  apply decide_eq_true
  rw [String.toList_append, ← String.length_toList, List.take_left]

omit hk in
/-- A label that is named without `L_` does not begin with it. -/
theorem startsWith_labelText {l : Label} (h : hasPrintedName l = false) :
    startsWith (labelText number l) "L_" = false := by
  cases l with
  | setjmp var =>
      apply decide_eq_false
      rw [labelText, String.toList_append]
      intro heq
      have hhead : some 's' = some 'L' := congrArg List.head? heq
      exact absurd hhead (by decide)
  | beginMethod => exact (by decide : startsWith "begin_method" "L_" = false)
  | catchJump => exact (by decide : startsWith "catch_jump" "L_" = false)
  | endMethod => exact (by decide : startsWith "end_method" "L_" = false)
  | _ => cases h

/-- All labels are printed with `L_` before the text that the other assembler has. -/
theorem printedLabel_labelName (l : Label) :
    printedLabel opts (labelName opts number l) = "L_" ++ labelText number l := by
  rw [labelName_eq hk, printedLabel, hk]
  cases hname : hasPrintedName l with
  | true => simp [startsWith_append]
  | false => simp [startsWith_labelText number hname]

/-- A label is named as one that is printed exactly if it is that one and has `L_` in its name. -/
theorem labelName_eq_printed_iff {number : ℕ → ℕ} {l l' : Label}
    (hnumber : ∀ b ∈ labelBlocks l, ∀ b' ∈ labelBlocks l', number b = number b' → b = b') :
    labelName opts number l = printedLabel opts (labelName opts number l') ↔
      l = l' ∧ hasPrintedName l = true := by
  rw [printedLabel_labelName hk, labelName_eq hk]
  cases hname : hasPrintedName l with
  | true =>
      simp only [if_true, and_true]
      constructor
      · intro h
        exact labelText_inj hnumber (by simpa using h)
      · rintro rfl
        rfl
  | false =>
      refine iff_of_false (fun h => ?_) (by simp)
      have hstart := startsWith_labelText number hname
      rw [if_neg (by simp), String.empty_append] at h
      rw [h, startsWith_append] at hstart
      cases hstart

end texts

/-! ## Methods -/

/-- Every label that a line names is printed in the method, and none is printed twice. -/
structure LabelsDefined (opts : GenerationOpts) (number : ℕ → ℕ) (m : MethodText) : Prop where
  defined : ∀ l ∈ targets m.lines, labelName opts number l ∈
    (labels m.lines).map fun l => printedLabel opts (labelName opts number l)
  unique : ((labels m.lines).map fun l => printedLabel opts (labelName opts number l)).Nodup

section method

variable {opts : GenerationOpts} {f : FunctionDef} {vaArgNum : ℕ} {w w₁ w₂ : Writer}
  {m : MethodText} (hf : f.WellFormed) (h : MethodParts opts f vaArgNum w w₁ w₂ m)

include hf h

/-- Without calls of `setjmp` the lines name labels of blocks and of branches only. -/
theorem MethodParts.targets_of_numJumps (hzero : f.numJumps = 0) :
    ∀ l ∈ targets m.lines, l ∈ labels m.lines ∧ hasPrintedName l = true := by
  have hnone : numSetjmp f.bodyOps = 0 := hf.numSetjmp_bodyOps.trans hzero
  have hdrop : f.bodyOps.dropWhile (fun op => !op.isSetjmp) = [] := by
    rw [List.dropWhile_eq_nil_iff]
    intro op hop
    simpa using List.countP_eq_zero.mp hnone op hop
  have hfirst : AllocatesFirst w₁ f.bodyOps := by
    rw [allocatesFirst_iff, hdrop]
    simp
  intro l hl
  refine ⟨(h.defined_iff hf).mpr hfirst l hl, ?_⟩
  have hbody : l ∈ targets (m.body.flatMap Segment.lines) := by
    rcases h.mem_targets.mp hl with hl | ⟨hpos, -⟩
    · exact hl
    · exact (hpos hzero).elim
  rcases h.body.defined l hbody with hlabel | ⟨b, -, rfl⟩
  · rcases h.body.new l hlabel with hnew | hkept
    · cases l with
      | setjmp n =>
          have hmem := (h.body.setjmp n).mp hlabel
          have hempty : jumps { w₁ with lastLabel := some .beginMethod } f.bodyOps = [] :=
            List.eq_nil_of_length_eq_zero ((length_jumps _ _).trans hnone)
          rw [show f.order.flatMap f.ops = f.bodyOps from rfl, hempty] at hmem
          cases hmem
      | beginMethod => exact hnew.elim
      | catchJump => exact hnew.elim
      | endMethod => exact hnew.elim
      | _ => rfl
    · obtain ⟨b, -, rfl⟩ := List.mem_map.mp hkept
      rfl
  · rfl

end method

/-- For the Krakatau assembler the labels of a method are all defined exactly if the function does
not call `setjmp`. -/
theorem printFunction_krakatau_iff (opts : GenerationOpts) (hk : opts.useKrakatau = true)
    (skip : Bool) (f : FunctionDef) (curBasicblockMapId maxOperands : ℕ) (w w' : Writer)
    (m : MethodText) (hf : f.WellFormed) (hw : w.Reachable opts)
    (hprint : printFunction opts skip f curBasicblockMapId maxOperands w = some (m, w'))
    (requests : List ℕ)
    (hrequests : ∀ l ∈ labels m.lines ++ targets m.lines, labelBlocks l ⊆ requests) :
    LabelsDefined opts (blockNumber requests) m ↔ f.numJumps = 0 := by
  obtain ⟨vaArgNum, w₁, w₂, hparts, -, -⟩ := printFunction_parts hf hw.ready.2 hprint
  have hnumber : ∀ l ∈ labels m.lines ++ targets m.lines, ∀ l' ∈ labels m.lines ++ targets m.lines,
      ∀ b ∈ labelBlocks l, ∀ b' ∈ labelBlocks l',
        blockNumber requests b = blockNumber requests b' → b = b' :=
    fun l hl l' hl' b hb b' hb' => blockNumber_inj (hrequests l hl hb) (hrequests l' hl' hb')
  constructor
  · intro hdefined
    by_contra hpos
    -- the range of the handler begins at a label that is named without `L_`
    have hbegin : .beginMethod ∈ targets m.lines := hparts.mem_targets.mpr (.inr ⟨hpos, .inl rfl⟩)
    obtain ⟨l, hl, heq⟩ := List.mem_map.mp (hdefined.defined _ hbegin)
    obtain ⟨-, hname⟩ :=
      (labelName_eq_printed_iff hk (l := .beginMethod) (by simp [labelBlocks])).mp heq.symm
    cases hname
  · intro hzero
    refine ⟨fun l hl => ?_, ?_⟩
    · obtain ⟨hlabel, hname⟩ := hparts.targets_of_numJumps hf hzero l hl
      refine List.mem_map.mpr ⟨l, hlabel, ?_⟩
      rw [printedLabel_labelName hk, labelName_eq hk, hname, if_pos rfl]
    · refine hparts.nodup.map_on fun l hl l' hl' heq => ?_
      rw [printedLabel_labelName hk, printedLabel_labelName hk] at heq
      exact labelText_inj (hnumber l (List.mem_append_left _ hl) l' (List.mem_append_left _ hl'))
        (by simpa using heq)

theorem printFunction_krakatau_call : ∃ m w',
    printFunction ⟨true, false, false, false⟩ false (callFunction ⟨"g", ⟨[], false, none⟩, true⟩)
      0 2 .start = some (m, w') ∧
    LabelsDefined ⟨true, false, false, false⟩ (blockNumber [0, 1]) m := by
  have hprint : printFunction ⟨true, false, false, false⟩ false
      (callFunction ⟨"g", ⟨[], false, none⟩, true⟩) 0 2 .start = some (_, _) := rfl
  exact ⟨_, _, hprint, (printFunction_krakatau_iff ⟨true, false, false, false⟩ rfl false
    (callFunction ⟨"g", ⟨[], false, none⟩, true⟩) 0 2 .start _ _ (callFunction_wellFormed _)
    (.start rfl rfl) hprint [0, 1] (by decide)).mpr rfl⟩

/-- The label of the handler's range is printed with `L_` and named without it. -/
theorem printFunction_krakatau_setjmp : ∃ m w',
    printFunction ⟨true, false, false, false⟩ false (setjmpFunction [setjmpInst]) 0 2 .start =
      some (m, w') ∧ (setjmpFunction [setjmpInst]).WellFormed ∧
    ¬ LabelsDefined ⟨true, false, false, false⟩ (blockNumber [0]) m := by
  refine ⟨_, _, rfl, setjmpFunction_wellFormed (.inr (.inr rfl)), fun h => ?_⟩
  have hdefined := h.defined .beginMethod (by decide)
  revert hdefined
  decide

end Llxvm.Backend
