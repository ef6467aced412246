import Llxvm.Backend.Method

/-!
# Labels

Which labels the writer defines and which ones it names, for every piece of code that it prints.
The numbers in labels come from counters, so that the labels of two pieces never clash.
-/

namespace Llxvm.Backend

open Llxvm.Jvm

/-! ## The labels of a text -/

/-- The labels that a line defines. -/
def Line.labels : Line → List Label
  | .instr (.label l) => [l]
  | _ => []

/-- The labels that a line names. -/
def Line.targets : Line → List Label
  | .instr (.goto _ l) => [l]
  | .instr (.ifne l) => [l]
  | .instr (.ifeq l) => [l]
  | .instr (.if_icmpeq l) => [l]
  | .lookupswitch cases default => default :: cases.map Prod.snd
  | .catching start stop handler => [start, stop, handler]
  | _ => []

/-- The number of local variables of a load or a store. -/
def prefixRegisters : Prefix → ℕ
  | .l => 2
  | .d => 2
  | _ => 1

/-- Where the local variables that a line uses end. -/
def Line.slotEnds : Line → List ℕ
  | .instr (.load p _ n) => [n + prefixRegisters p]
  | .instr (.store p _ n) => [n + prefixRegisters p]
  | _ => []

def labels (ls : List Line) : List Label := ls.flatMap Line.labels

def targets (ls : List Line) : List Label := ls.flatMap Line.targets

def slotEnds (ls : List Line) : List ℕ := ls.flatMap Line.slotEnds

@[simp] theorem labels_nil : labels [] = [] := rfl
@[simp] theorem targets_nil : targets [] = [] := rfl
@[simp] theorem slotEnds_nil : slotEnds [] = [] := rfl

@[simp] theorem labels_append (ls js : List Line) : labels (ls ++ js) = labels ls ++ labels js :=
  List.flatMap_append

@[simp] theorem targets_append (ls js : List Line) :
    targets (ls ++ js) = targets ls ++ targets js := List.flatMap_append

@[simp] theorem slotEnds_append (ls js : List Line) :
    slotEnds (ls ++ js) = slotEnds ls ++ slotEnds js := List.flatMap_append

@[simp] theorem labels_cons (l : Line) (ls : List Line) :
    labels (l :: ls) = l.labels ++ labels ls :=
  rfl

@[simp] theorem targets_cons (l : Line) (ls : List Line) :
    targets (l :: ls) = l.targets ++ targets ls := rfl

@[simp] theorem slotEnds_cons (l : Line) (ls : List Line) :
    slotEnds (l :: ls) = l.slotEnds ++ slotEnds ls := rfl

@[simp] theorem lines_nil : lines [] = [] := rfl

@[simp] theorem lines_cons (i : Instr) (is : Code) : lines (i :: is) = .instr i :: lines is := rfl

@[simp] theorem lines_append (is js : Code) : lines (is ++ js) = lines is ++ lines js :=
  List.map_append

theorem labels_flatMap {α : Type} (xs : List α) (code : α → Code) :
    labels (lines (xs.flatMap code)) = xs.flatMap fun x => labels (lines (code x)) := by
  induction xs with
  | nil => rfl
  | cons x xs ih => simp [ih]

theorem targets_flatMap {α : Type} (xs : List α) (code : α → Code) :
    targets (lines (xs.flatMap code)) = xs.flatMap fun x => targets (lines (code x)) := by
  induction xs with
  | nil => rfl
  | cons x xs ih => simp [ih]

theorem slotEnds_flatMap {α : Type} (xs : List α) (code : α → Code) :
    slotEnds (lines (xs.flatMap code)) = xs.flatMap fun x => slotEnds (lines (code x)) := by
  induction xs with
  | nil => rfl
  | cons x xs ih => simp [ih]

/-- A line without labels and local variables. -/
def Line.isPlain : Line → Bool
  | .instr (.load _ _ _) => false
  | .instr (.store _ _ _) => false
  | .instr (.label _) => false
  | .instr (.goto _ _) => false
  | .instr (.ifne _) => false
  | .instr (.ifeq _) => false
  | .instr (.if_icmpeq _) => false
  | .lookupswitch _ _ => false
  | .catching _ _ _ => false
  | _ => true

def Plain (ls : List Line) : Prop := ∀ l ∈ ls, l.isPlain

namespace Plain

variable {ls js : List Line}

theorem append (h₁ : Plain ls) (h₂ : Plain js) : Plain (ls ++ js) := by
  intro l hl
  rcases List.mem_append.mp hl with hl | hl
  · exact h₁ l hl
  · exact h₂ l hl

theorem labels_eq (h : Plain ls) : labels ls = [] := by
  refine List.flatMap_eq_nil_iff.mpr fun l hl => ?_
  have hplain := h l hl
  unfold Line.isPlain at hplain
  unfold Line.labels
  split <;> simp_all

theorem targets_eq (h : Plain ls) : targets ls = [] := by
  refine List.flatMap_eq_nil_iff.mpr fun l hl => ?_
  have hplain := h l hl
  unfold Line.isPlain at hplain
  unfold Line.targets
  split <;> simp_all

theorem slotEnds_eq (h : Plain ls) : slotEnds ls = [] := by
  refine List.flatMap_eq_nil_iff.mpr fun l hl => ?_
  have hplain := h l hl
  unfold Line.isPlain at hplain
  unfold Line.slotEnds
  split <;> simp_all

theorem of_isUnary {is : Code} (h : ∀ i ∈ is, i.isUnary) : Plain (lines is) := by
  intro l hl
  obtain ⟨i, hi, rfl⟩ := List.mem_map.mp hl
  have hunary := h i hi
  cases i <;> first | rfl | cases hunary

theorem of_isPush {is : Code} (h : IsPush is) : Plain (lines is) := by
  obtain ⟨i, rfl, hi⟩ := h
  intro l hl
  obtain rfl := List.mem_singleton.mp hl
  cases i <;> first | rfl | cases hi

theorem of_isBinary {is : Code} (h : IsBinary is) : Plain (lines is) := by
  rcases h with ⟨p, op, rfl⟩ | ⟨p, op, rfl⟩ | ⟨m, rfl, -, -⟩ <;> intro l hl <;> simp at hl <;>
    grind [Line.isPlain]

end Plain

theorem plain_castCode (op : CastOp) (ty srcTy : Ty) : Plain (lines (castCode op ty srcTy)) :=
  .of_isUnary (castCode_isUnary op ty srcTy)

theorem plain_printFunctionLoad (opts : GenerationOpts) (f : FunctionRef) :
    Plain (lines (printFunctionLoad opts f)) := by
  unfold printFunctionLoad ldcToken
  split_ifs <;> simp [Plain, Line.isPlain]

theorem plain_truncateCode (ty : Ty) : Plain (lines (truncateCode ty)) := by
  unfold truncateCode
  simp only
  split_ifs <;> simp [Plain, Line.isPlain]

/-! ## What printing does to the labels -/

/-- The label has a number that was given out between two states of the writer. -/
def NewLabel (w w' : Writer) : Label → Prop
  | .phi _ uid => w.uid < uid ∧ uid ≤ w'.uid
  | .select uid _ => w.uid < uid ∧ uid ≤ w'.uid
  | .br id => w.curRewriteBrLblId ≤ id ∧ id < w'.curRewriteBrLblId
  | .setjmp var => w.usedRegisters ≤ var ∧ var < w'.usedRegisters
  | _ => False

/-- The number in the label, if there is one, has been given out. -/
def OldLabel (w : Writer) : Label → Prop
  | .phi _ uid => uid ≤ w.uid
  | .select uid _ => uid ≤ w.uid
  | .br id => id < w.curRewriteBrLblId
  | .setjmp var => var < w.usedRegisters
  | _ => True

/-- The counters have moved on. -/
structure Later (w w' : Writer) : Prop where
  uid_le : w.uid ≤ w'.uid
  curRewriteBrLblId_le : w.curRewriteBrLblId ≤ w'.curRewriteBrLblId
  usedRegisters_le : w.usedRegisters ≤ w'.usedRegisters

theorem Later.refl (w : Writer) : Later w w := ⟨le_rfl, le_rfl, le_rfl⟩

theorem Later.trans {w w₁ w₂ : Writer} (h₁ : Later w w₁) (h₂ : Later w₁ w₂) : Later w w₂ :=
  ⟨h₁.uid_le.trans h₂.uid_le, h₁.curRewriteBrLblId_le.trans h₂.curRewriteBrLblId_le,
    h₁.usedRegisters_le.trans h₂.usedRegisters_le⟩

section labels

variable {w w₁ w₂ : Writer} {l : Label}

theorem NewLabel.mono_right (h : NewLabel w w₁ l) (hlater : Later w₁ w₂) : NewLabel w w₂ l := by
  obtain ⟨huid, hbr, hused⟩ := hlater
  cases l <;> simp only [NewLabel] at h ⊢ <;> omega

theorem NewLabel.mono_left (h : NewLabel w₁ w₂ l) (hlater : Later w w₁) : NewLabel w w₂ l := by
  obtain ⟨huid, hbr, hused⟩ := hlater
  cases l <;> simp only [NewLabel] at h ⊢ <;> omega

theorem NewLabel.old (h : NewLabel w w₁ l) : OldLabel w₁ l := by
  cases l <;> simp only [NewLabel, OldLabel] at h ⊢ <;> omega

theorem OldLabel.mono (h : OldLabel w l) (hlater : Later w w₁) : OldLabel w₁ l := by
  obtain ⟨huid, hbr, hused⟩ := hlater
  cases l <;> simp only [OldLabel] at h ⊢ <;> omega

theorem NewLabel.not_old (h : NewLabel w w₁ l) : ¬ OldLabel w l := by
  cases l <;> simp only [NewLabel, OldLabel] at h ⊢ <;> omega

end labels

/-- The labels of the lines printed between two states are not repeated, and the lines name no
others, apart from those that satisfy `T`.  They have new numbers, or are among those that are kept
for these lines.  The lines use local variables that have been given out. -/
structure Prints (T : Label → Prop) (kept : List Label) (w w' : Writer) (ls : List Line) : Prop
    extends Later w w' where
  last : w'.lastLabel = w.lastLabel ∨ ∃ l, w'.lastLabel = some l ∧ l ∈ labels ls
  new : ∀ l ∈ labels ls, NewLabel w w' l ∨ l ∈ kept
  old : ∀ l ∈ kept, OldLabel w l
  nodup : (labels ls).Nodup
  defined : ∀ l ∈ targets ls, l ∈ labels ls ∨ T l
  below : ∀ n ∈ slotEnds ls, n ≤ w'.usedRegisters

namespace Prints

variable {T : Label → Prop} {kept kept' : List Label} {w w₁ w₂ : Writer} {ls js : List Line}
  {l : Label}

theorem plain (h : Plain ls) : Prints T [] w w ls where
  toLater := .refl w
  last := .inl rfl
  new := by simp [h.labels_eq]
  old := by simp
  nodup := by simp [h.labels_eq]
  defined := by simp [h.targets_eq]
  below := by simp [h.slotEnds_eq]

theorem label (hold : OldLabel w l) {code : Code} (hlast : w.lastLabel ≠ some l)
    (hprint : printLabel l w = some (code, w₁)) :
    code = [.label l] ∧ w₁ = { w with lastLabel := some l } ∧
      Prints T [l] w w₁ (lines code) := by
  rw [printLabel_of_ne hlast] at hprint
  cases hprint
  exact ⟨rfl, rfl, ⟨le_rfl, le_rfl, le_rfl⟩, .inr ⟨l, rfl, by simp [Line.labels]⟩,
    by simp [Line.labels], by simpa using hold, by simp [Line.labels], by simp [Line.targets],
    by simp [Line.slotEnds]⟩

theorem old_right (h : Prints T kept w w₁ ls) (hl : l ∈ labels ls) : OldLabel w₁ l := by
  rcases h.new l hl with hnew | hkept
  · exact hnew.old
  · exact (h.old l hkept).mono h.toLater

theorem trans (h₁ : Prints T kept w w₁ ls) (h₂ : Prints T kept' w₁ w₂ js)
    (hold : ∀ l ∈ kept', OldLabel w l) (hdisj : ∀ l ∈ kept', l ∉ kept) :
    Prints T (kept ++ kept') w w₂ (ls ++ js) where
  toLater := h₁.toLater.trans h₂.toLater
  last := by
    rw [labels_append]
    rcases h₂.last with hlast | ⟨l, hlast, hmem⟩
    · rcases h₁.last with hlast₁ | ⟨l, hlast₁, hmem⟩
      · exact .inl (hlast.trans hlast₁)
      · exact .inr ⟨l, hlast.trans hlast₁, List.mem_append_left _ hmem⟩
    · exact .inr ⟨l, hlast, List.mem_append_right _ hmem⟩
  new := by
    intro l hl
    rw [labels_append] at hl
    rcases List.mem_append.mp hl with hl | hl
    · exact (h₁.new l hl).imp (·.mono_right h₂.toLater) (List.mem_append_left _)
    · exact (h₂.new l hl).imp (·.mono_left h₁.toLater) (List.mem_append_right _)
  old := by
    intro l hl
    rcases List.mem_append.mp hl with hl | hl
    · exact h₁.old l hl
    · exact hold l hl
  nodup := by
    rw [labels_append]
    refine List.Nodup.append h₁.nodup h₂.nodup fun l hl hl' => ?_
    rcases h₂.new l hl' with hnew | hkept'
    · exact hnew.not_old (h₁.old_right hl)
    · rcases h₁.new l hl with hnew | hkept
      · exact hnew.not_old (hold l hkept')
      · exact hdisj l hkept' hkept
  defined := by
    intro l hl
    rw [targets_append] at hl
    rw [labels_append]
    rcases List.mem_append.mp hl with hl | hl
    · exact (h₁.defined l hl).imp_left (List.mem_append_left _)
    · exact (h₂.defined l hl).imp_left (List.mem_append_right _)
  below := by
    intro n hn
    rw [slotEnds_append] at hn
    rcases List.mem_append.mp hn with hn | hn
    · exact (h₁.below n hn).trans h₂.usedRegisters_le
    · exact h₂.below n hn

theorem append (h₁ : Prints T kept w w₁ ls) (h₂ : Prints T [] w₁ w₂ js) :
    Prints T kept w w₂ (ls ++ js) := by
  have h := h₁.trans h₂ (by simp) (by simp)
  rwa [List.append_nil] at h

/-- Only the labels and the local variables count. -/
theorem congr (h : Prints T kept w w₁ ls) (hlabels : labels js = labels ls)
    (htargets : ∀ l ∈ targets js, l ∈ targets ls ∨ l ∈ labels js ∨ T l)
    (hslots : ∀ n ∈ slotEnds js, n ∈ slotEnds ls ∨ n ≤ w₁.usedRegisters) :
    Prints T kept w w₁ js where
  toLater := h.toLater
  last := hlabels ▸ h.last
  new := hlabels ▸ h.new
  old := h.old
  nodup := hlabels ▸ h.nodup
  defined := by
    intro l hl
    rcases htargets l hl with hl | hl
    · exact hlabels ▸ h.defined l hl
    · exact hl
  below := fun n hn => (hslots n hn).elim (h.below n) id

theorem close {T' : Label → Prop} (h : Prints T' kept w w₁ ls)
    (hT : ∀ l, T' l → T l ∨ l ∈ labels ls) : Prints T kept w w₁ ls where
  toLater := h.toLater
  last := h.last
  new := h.new
  old := h.old
  nodup := h.nodup
  defined := fun l hl => (h.defined l hl).elim .inl fun hl => (hT l hl).symm
  below := h.below

/-- The numbers of the labels that are kept have been given out just before. -/
theorem keep (h : Prints T kept w₁ w₂ ls) (hlater : Later w w₁)
    (hlast : w₁.lastLabel = w.lastLabel) (hkept : ∀ l ∈ kept, NewLabel w w₁ l) :
    Prints T [] w w₂ ls where
  toLater := hlater.trans h.toLater
  last := hlast ▸ h.last
  new := fun l hl => .inl ((h.new l hl).elim (·.mono_left hlater)
    fun hl => (hkept l hl).mono_right h.toLater)
  old := by simp
  nodup := h.nodup
  defined := h.defined
  below := h.below

/-- A label whose line is still to come is not the last one. -/
theorem last_ne (h : Prints T kept w w₁ ls) (hne : w.lastLabel ≠ some l) (hold : OldLabel w l)
    (hkept : l ∉ kept) : w₁.lastLabel ≠ some l := by
  intro heq
  rcases h.last with hlast | ⟨l', hlast, hmem⟩
  · exact hne (hlast ▸ heq)
  · cases hlast.symm.trans heq
    rcases h.new l hmem with hnew | hmem
    · exact hnew.not_old hold
    · exact hkept hmem

end Prints

/-- The last label has an old number, and the values have their local variables. -/
structure Ready (vars : List Local) (w : Writer) : Prop where
  last : ∀ l, w.lastLabel = some l → OldLabel w l
  has : ∀ v ∈ vars, (w.localVars.lookup v.id).isSome
  given : ∀ id n, w.localVars.lookup id = some n → n < w.usedRegisters
  room : ∀ v ∈ vars, ∀ n, w.localVars.lookup v.id = some n → n + v.ty.registers ≤ w.usedRegisters

/-- Lines that are printed without allocating local variables. -/
structure PrintsOnly (T : Label → Prop) (w w' : Writer) (ls : List Line) : Prop
    extends Prints T [] w w' ls where
  localVars : w'.localVars = w.localVars
  usedRegisters : w'.usedRegisters = w.usedRegisters

section ready

variable {T : Label → Prop} {kept : List Label} {vars : List Local} {w w₁ w₂ : Writer}
  {ls js : List Line} {l : Label}

theorem Ready.last_ne (h : Ready vars w) (hnew : NewLabel w w₁ l) : w.lastLabel ≠ some l :=
  fun heq => hnew.not_old (h.last l heq)

theorem Ready.after_of_eq (h : Ready vars w) (hprints : Prints T kept w w₁ ls)
    (hvars : w₁.localVars = w.localVars) : Ready vars w₁ := by
  have hle := hprints.usedRegisters_le
  refine ⟨fun l hl => ?_, fun v hv => hvars ▸ h.has v hv,
    fun id n hn => (h.given id n (hvars ▸ hn)).trans_le hle,
    fun v hv n hn => (h.room v hv n (hvars ▸ hn)).trans hle⟩
  rcases hprints.last with hlast | ⟨l', hlast, hmem⟩
  · exact (h.last l (hlast ▸ hl)).mono hprints.toLater
  · cases hlast.symm.trans hl
    exact hprints.old_right hmem

theorem Ready.after (h : Ready vars w) (hprints : PrintsOnly T w w₁ ls) : Ready vars w₁ :=
  h.after_of_eq hprints.toPrints hprints.localVars

theorem Ready.later (h : Ready vars w) (hlater : Later w w₁) (hlast : w₁.lastLabel = w.lastLabel)
    (hvars : w₁.localVars = w.localVars) : Ready vars w₁ :=
  ⟨fun l hl => (h.last l (hlast ▸ hl)).mono hlater, fun v hv => hvars ▸ h.has v hv,
    fun id n hn => (h.given id n (hvars ▸ hn)).trans_le hlater.usedRegisters_le,
    fun v hv n hn => (h.room v hv n (hvars ▸ hn)).trans hlater.usedRegisters_le⟩

namespace PrintsOnly

theorem plain (h : Plain ls) : PrintsOnly T w w ls := ⟨.plain h, rfl, rfl⟩

theorem trans (h₁ : PrintsOnly T w w₁ ls) (h₂ : PrintsOnly T w₁ w₂ js) :
    PrintsOnly T w w₂ (ls ++ js) :=
  ⟨h₁.toPrints.append h₂.toPrints, h₂.localVars.trans h₁.localVars,
    h₂.usedRegisters.trans h₁.usedRegisters⟩

theorem congr (h : PrintsOnly T w w₁ ls) (hlabels : labels js = labels ls)
    (htargets : ∀ l ∈ targets js, l ∈ targets ls ∨ l ∈ labels js ∨ T l)
    (hslots : ∀ n ∈ slotEnds js, n ∈ slotEnds ls ∨ n ≤ w₁.usedRegisters) :
    PrintsOnly T w w₁ js :=
  ⟨h.toPrints.congr hlabels htargets hslots, h.localVars, h.usedRegisters⟩

end PrintsOnly

end ready

/-! ## Printing in sequence -/

section sequence

variable (T : Label → Prop) (vars : List Local) {α β : Type}

/-- Whatever is printed has labels of its own. -/
def Safe (e : α → List Line) (x : Emit α) : Prop :=
  ∀ ⦃w w' a⦄, Ready vars w → x w = some (a, w') → PrintsOnly T w w' (e a)

/-- The same, for a computation that returns the lines `pre` printed before as well. -/
def SafeAfter (pre : List Line) (e : α → List Line) (x : Emit α) : Prop :=
  ∀ ⦃w₀ w w' a⦄, Ready vars w₀ → PrintsOnly T w₀ w pre → x w = some (a, w') →
    PrintsOnly T w₀ w' (e a)

variable {T vars} {e : α → List Line} {e' : β → List Line} {x : Emit α} {f : α → Emit β}
  {pre : List Line} {a : α}

theorem Safe.bind (hx : Safe T vars e x) (hf : ∀ a, SafeAfter T vars (e a) e' (f a)) :
    Safe T vars e' (x >>= f) := by
  intro w w' b hw hprint
  obtain ⟨a, w₁, ha, hb⟩ := emit_bind_eq_some hprint
  exact hf a hw (hx hw ha) hb

theorem SafeAfter.bind (hx : Safe T vars e x)
    (hf : ∀ a, SafeAfter T vars (pre ++ e a) e' (f a)) :
    SafeAfter T vars pre e' (x >>= f) := by
  intro w₀ w w' b hw hpre hprint
  obtain ⟨a, w₁, ha, hb⟩ := emit_bind_eq_some hprint
  exact hf a hw (hpre.trans (hx (hw.after hpre) ha)) hb

theorem SafeAfter.ret (hlabels : labels (e a) = labels pre)
    (htargets : ∀ l ∈ targets (e a), l ∈ targets pre ∨ l ∈ labels (e a) ∨ T l)
    (hslots : slotEnds (e a) = slotEnds pre) : SafeAfter T vars pre e (pure a) := by
  intro w₀ w w' b hw hpre hprint
  cases hprint
  exact hpre.congr hlabels htargets fun n hn => .inl (hslots ▸ hn)

theorem SafeAfter.ret_of_eq (hlabels : labels (e a) = labels pre)
    (htargets : targets (e a) = targets pre) (hslots : slotEnds (e a) = slotEnds pre) :
    SafeAfter T vars pre e (pure a) :=
  .ret hlabels (fun _ hl => .inl (htargets ▸ hl)) hslots

theorem safe_pure (h : Plain (e a)) : Safe T vars e (pure a) := by
  intro w w' b hw hprint
  cases hprint
  exact .plain h

theorem safe_unreachable : Safe T vars e unreachable := by
  intro w w' b hw hprint
  cases hprint

end sequence

/-! ## Loads of values -/

section loads

variable {T : Label → Prop} {vars : List Local} {opts : GenerationOpts}

/-- The two labels of a `select` are defined in it. -/
theorem safe_select {cond trueVal falseVal : Emit Code} (hc : Safe T vars lines cond)
    (ht : Safe T vars lines trueVal) (hf : Safe T vars lines falseVal) :
    Safe T vars lines (do
      let uid ← getUID
      let c ← cond
      let t ← trueVal
      let la ← printLabel (.select uid false)
      let e ← falseVal
      let lb ← printLabel (.select uid true)
      return c ++ [.ifeq (.select uid false)] ++ t ++ [gotoToken opts (.select uid true)] ++ la ++
        e ++ lb) := by
  intro w w' is hw hprint
  obtain ⟨uid, w₁, huid, h₁⟩ := emit_bind_eq_some hprint
  obtain ⟨c, w₂, hcond, h₂⟩ := emit_bind_eq_some h₁
  obtain ⟨t, w₃, htrue, h₃⟩ := emit_bind_eq_some h₂
  obtain ⟨la, w₄, hla, h₄⟩ := emit_bind_eq_some h₃
  obtain ⟨e, w₅, hfalse, h₅⟩ := emit_bind_eq_some h₄
  obtain ⟨lb, w₆, hlb, h₆⟩ := emit_bind_eq_some h₅
  clear hprint h₁ h₂ h₃ h₄ h₅
  cases h₆
  rw [getUID_eq] at huid
  cases huid
  have hlater : Later w { w with uid := w.uid + 1 } := ⟨Nat.le_succ _, le_rfl, le_rfl⟩
  have hnew : ∀ b, NewLabel w { w with uid := w.uid + 1 } (.select (w.uid + 1) b) := by
    intro b
    simp [NewLabel]
  have hold : ∀ b, OldLabel { w with uid := w.uid + 1 } (.select (w.uid + 1) b) :=
    fun b => (hnew b).old
  have hw₁ : Ready vars { w with uid := w.uid + 1 } := hw.later hlater rfl rfl
  have hcond' := hc hw₁ hcond
  have hct := hcond'.trans (ht (hw₁.after hcond') htrue)
  obtain ⟨rfl, hw₄, hla⟩ := Prints.label (T := T) ((hold false).mono hct.toLater)
    (hct.last_ne (hw.last_ne (hnew false)) (hold false) (by simp)) hla
  have hcta := hct.toPrints.trans hla (by simpa using hold false) (by simp)
  have hready := hw₁.after_of_eq hcta (by rw [hw₄]; exact hct.localVars)
  have hfalse' := hf hready hfalse
  have hctae := hcta.append hfalse'.toPrints
  obtain ⟨rfl, hw₆, hlb⟩ := Prints.label (T := T) ((hold true).mono hctae.toLater)
    (hctae.last_ne (hw.last_ne (hnew true)) (hold true) (by simp)) hlb
  have hall := hctae.trans hlb (by simpa using hold true) (by simp)
  have hkept := hall.keep hlater rfl (by simpa using ⟨hnew false, hnew true⟩)
  refine ⟨hkept.congr ?_ ?_ ?_, ?_, ?_⟩
  · simp [Line.labels, gotoToken]
  · intro l hl
    simp only [lines_append, lines_cons, lines_nil, targets_append, targets_cons, targets_nil,
      Line.targets, gotoToken, List.mem_append, List.mem_singleton, List.not_mem_nil] at hl
    simp only [lines_append, lines_cons, lines_nil, targets_append, labels_append, labels_cons,
      labels_nil, Line.labels, List.mem_append, List.mem_singleton, List.not_mem_nil]
    tauto
  · simp +contextual [Line.slotEnds, gotoToken]
  · rw [hw₆]
    exact hfalse'.localVars.trans (hw₄ ▸ hct.localVars)
  · rw [hw₆]
    exact hfalse'.usedRegisters.trans (hw₄ ▸ hct.usedRegisters)

theorem safe_printGepIndex (dl : DataLayout) (ty : GepType) (index : Option Constant)
    (indexTy : Ty) {loadIndex : Emit Code} (hload : Safe T vars lines loadIndex) :
    Safe T vars lines (printGepIndex opts dl ty index indexTy loadIndex) := by
  have hpush : ∀ n, Plain (lines (printPtrLoad opts n)) := fun n =>
    .of_isPush (isPush_printConstLoadInt _)
  have hop : ∀ op, Plain (lines [.arith .i op]) := fun op => by simp [Plain, Line.isPlain]
  unfold printGepIndex
  split
  · exact safe_pure (by simpa using (hpush _).append (hop .add))
  · exact safe_unreachable
  · simp only
    split_ifs
    · exact safe_pure (by simp [Plain])
    · exact safe_pure (by simpa using (hpush _).append (hop .sub))
    · exact safe_pure (by simpa using (hpush _).append (hop .add))
  · refine hload.bind fun load => .ret_of_eq ?_ ?_ ?_
    · simp [(hpush _).labels_eq, (plain_castCode _ _ _).labels_eq, Line.labels]
    · simp [(hpush _).targets_eq, (plain_castCode _ _ _).targets_eq, Line.targets]
    · simp [(hpush _).slotEnds_eq, (plain_castCode _ _ _).slotEnds_eq, Line.slotEnds]

theorem safe_binary {left right : Emit Code} {is : Code} (hleft : Safe T vars lines left)
    (hright : Safe T vars lines right) (his : Plain (lines is)) :
    Safe T vars lines (do
      let l ← left
      let r ← right
      return l ++ r ++ is) := by
  refine hleft.bind fun l => SafeAfter.bind hright fun r => .ret_of_eq ?_ ?_ ?_
  · simp [his.labels_eq]
  · simp [his.targets_eq]
  · simp [his.slotEnds_eq]

theorem safe_unary {v : Emit Code} {is : Code} (hv : Safe T vars lines v)
    (his : Plain (lines is)) : Safe T vars lines (do
      let l ← v
      return l ++ is) := by
  refine hv.bind fun l => .ret_of_eq ?_ ?_ ?_
  · simp [his.labels_eq]
  · simp [his.targets_eq]
  · simp [his.slotEnds_eq]

theorem safe_blockAddress (block : String) : Safe T vars lines (do
    match (← get).basicblockMap.lookup block with
    | some bsid => return [ldcToken opts (.int bsid)]
    | none => unreachable) := by
  intro w w' is hw hprint
  simp only [emit_bind, emit_get, Option.bind_some] at hprint
  cases hlookup : w.basicblockMap.lookup block with
  | none =>
      rw [hlookup] at hprint
      cases hprint
  | some bsid =>
      rw [hlookup] at hprint
      cases hprint
      exact .plain (.of_isPush (isPush_ldcToken _))

mutual

theorem safe_printConstantLoad : ∀ c : Constant,
    Safe T vars lines (printConstantLoad opts c)
  | .function f => by
      rw [printConstantLoad]
      exact safe_pure (plain_printFunctionLoad opts f)
  | .globalVariable g => by
      rw [printConstantLoad]
      exact safe_pure (by simp [printGlobalLoad, Plain, Line.isPlain])
  | .null => by
      rw [printConstantLoad]
      exact safe_pure (.of_isPush (isPush_printConstLoadInt _))
  | .int w i => by
      rw [printConstantLoad]
      exact safe_pure (.of_isPush (isPush_printConstLoadInt _))
  | .float f => by
      rw [printConstantLoad]
      exact safe_pure (.of_isPush (isPush_printConstLoadFloat f))
  | .double d => by
      rw [printConstantLoad]
      exact safe_pure (.of_isPush (isPush_printConstLoadDouble d))
  | .undef ty => by
      rw [printConstantLoad]
      exact safe_pure (.of_isPush (isPush_printConstLoadInt _))
  | .blockAddress block => by
      rw [printConstantLoad]
      exact safe_blockAddress block
  | .aggregateZero ty => by
      rw [printConstantLoad]
      exact safe_pure (.of_isPush (isPush_printConstLoadInt _))
  | .string bytes => by
      rw [printConstantLoad]
      exact safe_pure (.of_isPush (isPush_printConstLoadInt _))
  | .dataArray elem elems => by
      rw [printConstantLoad]
      exact safe_pure (.of_isPush (isPush_printConstLoadInt _))
  | .aggregate ty operands => by
      rw [printConstantLoad]
      exact safe_pure (.of_isPush (isPush_printConstLoadInt _))
  | .castExpr op ty c => by
      rw [printConstantLoad]
      exact safe_unary (safe_printConstantLoad c) (plain_castCode op ty c.type)
  | .binaryExpr op left right => by
      rw [printConstantLoad]
      exact safe_binary (safe_printConstantLoad left) (safe_printConstantLoad right)
        (.of_isBinary (isBinary_arithmeticCode _ _ _))
  | .cmpExpr pred left right => by
      rw [printConstantLoad]
      exact safe_binary (safe_printConstantLoad left) (safe_printConstantLoad right)
        (.of_isBinary (isBinary_cmpCode _ _))
  | .gepExpr base types indices => by
      rw [printConstantLoad]
      refine (safe_printConstantLoad base).bind fun b =>
        SafeAfter.bind (safe_printConstantGep types indices) fun i => .ret_of_eq ?_ ?_ ?_
      · simp [(plain_castCode _ _ _).labels_eq]
      · simp [(plain_castCode _ _ _).targets_eq]
      · simp [(plain_castCode _ _ _).slotEnds_eq]
  | .selectExpr cond trueVal falseVal => by
      rw [printConstantLoad]
      exact safe_select (safe_printConstantLoad cond) (safe_printConstantLoad trueVal)
        (safe_printConstantLoad falseVal)

theorem safe_printConstantGep : ∀ (types : List GepType) (indices : List Constant),
    Safe T vars lines (printConstantGep opts types indices)
  | [], _ => by
      simp only [printConstantGep]
      exact safe_pure (by simp [Plain])
  | _ :: _, [] => by
      simp only [printConstantGep]
      exact safe_pure (by simp [Plain])
  | ty :: types, index :: indices => by
      rw [printConstantGep]
      exact (safe_printGepIndex .jvm ty (some index) index.type
        (safe_printConstantLoad index)).bind fun i =>
          SafeAfter.bind (safe_printConstantGep types indices) fun is =>
            .ret_of_eq (by simp) (by simp) (by simp)

end

theorem Ready.exists_has {w : Writer} (hw : Ready vars w) {v : Local} (hv : v ∈ vars) :
    ∃ n, w.Has v n ∧ n + v.ty.registers ≤ w.usedRegisters := by
  obtain ⟨n, hn⟩ := Option.isSome_iff_exists.mp (hw.has v hv)
  exact ⟨n, hn, hw.room v hv n hn⟩

theorem prefixRegisters_letter (ty : Ty) :
    prefixRegisters (getTypePrefix ty true) = ty.registers := by
  rcases ty.letter_cases with ⟨h | h, hr⟩ | ⟨h | h, hr⟩ <;> rw [hr] <;>
    rw [Ty.letter] at h <;> rw [h] <;> rfl

theorem safe_printValueLoad {v : Value} (hv : v.In vars) :
    Safe T vars lines (printValueLoad opts v) := by
  cases v with
  | const c => exact safe_printConstantLoad c
  | var v =>
      intro w w' is hw hprint
      obtain ⟨n, hn, hroom⟩ := hw.exists_has hv
      rw [printValueLoad_var hn] at hprint
      cases hprint
      refine ⟨⟨.refl w, .inl rfl, ?_, by simp, ?_, ?_, ?_⟩, rfl, rfl⟩
      · simp [Line.labels]
      · simp [Line.labels]
      · simp [Line.targets]
      · simpa [Line.slotEnds, prefixRegisters_letter] using hroom

theorem safe_printValueStore {v : Local} (hv : v ∈ vars) :
    Safe T vars lines (printValueStore opts v) := by
  intro w w' is hw hprint
  obtain ⟨n, hn, hroom⟩ := hw.exists_has hv
  rw [printValueStore_eq hn] at hprint
  cases hprint
  have htruncate := plain_truncateCode v.ty
  refine ⟨⟨.refl w, .inl rfl, ?_, by simp, ?_, ?_, ?_⟩, rfl, rfl⟩
  · simp [htruncate.labels_eq, Line.labels]
  · simp [htruncate.labels_eq, Line.labels]
  · simp [htruncate.targets_eq, Line.targets]
  · simpa [htruncate.slotEnds_eq, Line.slotEnds, prefixRegisters_letter] using hroom

end loads

end Llxvm.Backend
