import Llxvm.Backend.InstLabels

/-!
# Rewritten branches

What is printed with and without `jvm_rewrite_branches`: every `ifne` of a branch becomes an `ifeq`
over a `goto_w`, every `goto` a `goto_w`, and all else is the same.
-/

namespace Llxvm.Backend

open Llxvm.Jvm

/-- The same options with rewritten branches, which use `goto_w`. -/
def GenerationOpts.rewriting (opts : GenerationOpts) : GenerationOpts :=
  { opts with rewriteBranches := true, wideGotos := true }

/-! ## Lines -/

/-- The labels that `rewriteBranch` makes. -/
def isBr : Label → Bool
  | .br _ => true
  | _ => false

/-- The lines that are printed as they are, without labels of rewritten branches. -/
def Line.isKept : Line → Bool
  | .instr (.goto _ _) => false
  | .instr (.ifne _) => false
  | .instr (.label l) => !isBr l
  | .instr (.ifeq l) => !isBr l
  | .instr (.if_icmpeq l) => !isBr l
  | .lookupswitch cases default => !isBr default && cases.all fun c => !isBr c.2
  | .catching start stop handler => !isBr start && !isBr stop && !isBr handler
  | _ => true

inductive Rewritten : List Line → List Line → Prop
  | nil : Rewritten [] []
  | keep {line : Line} {ls ls' : List Line} (h : line.isKept) (hrest : Rewritten ls ls') :
      Rewritten (line :: ls) (line :: ls')
  | goto {wide : Bool} {l : Label} {ls ls' : List Line} (h : isBr l = false)
      (hrest : Rewritten ls ls') :
      Rewritten (.instr (.goto wide l) :: ls) (.instr (.goto true l) :: ls')
  | ifne {l : Label} {id : ℕ} {ls ls' : List Line} (h : isBr l = false)
      (hrest : Rewritten ls ls') :
      Rewritten (.instr (.ifne l) :: ls)
        (.instr (.ifeq (.br id)) :: .instr (.goto true l) :: .instr (.label (.br id)) :: ls')

namespace Rewritten

variable {ls ls' js js' : List Line}

theorem append (h : Rewritten ls ls') (h' : Rewritten js js') :
    Rewritten (ls ++ js) (ls' ++ js') := by
  induction h with
  | nil => exact h'
  | keep hkept hrest ih => exact .keep hkept ih
  | goto hl hrest ih => exact .goto hl ih
  | ifne hl hrest ih => exact .ifne hl ih

theorem of_kept (h : ∀ line ∈ ls, line.isKept) : Rewritten ls ls := by
  induction ls with
  | nil => exact .nil
  | cons line ls ih =>
      exact .keep (h line List.mem_cons_self) (ih fun l hl => h l (List.mem_cons_of_mem line hl))

theorem of_plain (h : Plain ls) : Rewritten ls ls := by
  refine of_kept fun line hline => ?_
  have hplain := h line hline
  unfold Line.isPlain at hplain
  unfold Line.isKept
  split <;> simp_all

end Rewritten

/-- Pieces of code that are printed without and with rewriting. -/
def RewrittenCode (is is' : Code) : Prop := Rewritten (lines is) (lines is')

namespace RewrittenCode

variable {is is' js js' : Code}

theorem append (h : RewrittenCode is is') (h' : RewrittenCode js js') :
    RewrittenCode (is ++ js) (is' ++ js') := by
  unfold RewrittenCode
  rw [lines_append, lines_append]
  exact Rewritten.append h h'

theorem of_plain (h : Plain (lines is)) : RewrittenCode is is := Rewritten.of_plain h

theorem append_plain (h : RewrittenCode is is') (hjs : Plain (lines js)) :
    RewrittenCode (is ++ js) (is' ++ js) := h.append (.of_plain hjs)

theorem goto {opts : GenerationOpts} {l : Label} (h : isBr l = false) :
    RewrittenCode [gotoToken opts l] [gotoToken opts.rewriting l] := Rewritten.goto h .nil

end RewrittenCode

/-! ## Printing -/

/-- The states of the writer differ in the number of the next rewritten branch at most. -/
def Writer.SameBut (w w' : Writer) : Prop :=
  ∃ n, w' = { w with curRewriteBrLblId := n }

/-- Both computations print what is related by `R`, or neither prints anything. -/
def Related {α β : Type} (R : α → β → Prop) (x : Emit α) (x' : Emit β) : Prop :=
  ∀ ⦃w w' : Writer⦄, w.SameBut w' →
    Option.Rel (fun p p' => R p.1 p'.1 ∧ p.2.SameBut p'.2) (x w) (x' w')

namespace Related

variable {α β γ δ : Type} {R : α → β → Prop} {S : γ → δ → Prop} {x : Emit α} {x' : Emit β}

theorem bind {f : α → Emit γ} {f' : β → Emit δ} (hx : Related R x x')
    (hf : ∀ a a', R a a' → Related S (f a) (f' a')) : Related S (x >>= f) (x' >>= f') := by
  intro w w' hw
  rw [emit_bind, emit_bind]
  have h := hx hw
  generalize x w = p, x' w' = p' at h
  cases h with
  | none => exact .none
  | @some p p' h => exact hf p.1 p'.1 h.1 h.2

theorem pure {a : α} {a' : β} (h : R a a') :
    Related R (Pure.pure a : Emit α) (Pure.pure a' : Emit β) :=
  fun _ _ hw => .some ⟨h, hw⟩

theorem unreachable : Related R (Backend.unreachable : Emit α) (Backend.unreachable : Emit β) :=
  fun _ _ _ => .none

/-- Behind a computation whose result is the same on both sides. -/
theorem bind_eq {x x' : Emit α} {f : α → Emit γ} {f' : α → Emit δ} (hx : Related Eq x x')
    (hf : ∀ a, Related S (f a) (f' a)) : Related S (x >>= f) (x' >>= f') :=
  hx.bind fun a _ h => h ▸ hf a

/-- A computation that does not touch the number of the next rewritten branch. -/
theorem of_comm {x : Emit α} (h : ∀ w n, x { w with curRewriteBrLblId := n } =
    (x w).map fun p => (p.1, { p.2 with curRewriteBrLblId := n })) : Related Eq x x := by
  rintro w _ ⟨n, rfl⟩
  rw [h w n]
  cases x w with
  | none => exact .none
  | some p => exact .some ⟨rfl, n, rfl⟩

end Related

section writer

theorem related_getUID : Related Eq getUID getUID := .of_comm fun _ _ => rfl

theorem related_printLabel {l : Label} (hl : isBr l = false) :
    Related RewrittenCode (printLabel l) (printLabel l) := by
  rintro w _ ⟨n, rfl⟩
  simp only [printLabel, emit_bind, emit_get, Option.bind_some]
  split_ifs
  · exact .some ⟨.nil, n, rfl⟩
  · exact .some ⟨.keep (by simp [Line.isKept, hl]) .nil, n, rfl⟩

theorem related_getLocalVarNumber (v : Local) :
    Related Eq (getLocalVarNumber v) (getLocalVarNumber v) := by
  refine .of_comm fun w n => ?_
  simp only [getLocalVarNumber, emit_bind, emit_get, Option.bind_some]
  cases w.localVars.lookup v.id <;> rfl

theorem related_get : Related Writer.SameBut get get := fun _ _ hw => .some ⟨hw, hw⟩

theorem related_set {w w' : Writer} (h : w.SameBut w') :
    Related Eq (set w : Emit PUnit) (set w' : Emit PUnit) := fun _ _ _ => .some ⟨rfl, h⟩

end writer

/-! ## Values -/

section values

variable {opts : GenerationOpts}

theorem related_unary {v v' : Emit Code} {is : Code} (hv : Related RewrittenCode v v')
    (his : Plain (lines is)) : Related RewrittenCode (do
      let l ← v
      return l ++ is) (do
      let l ← v'
      return l ++ is) :=
  hv.bind fun _ _ hl => .pure (hl.append_plain his)

theorem related_binary {left right left' right' : Emit Code} {is : Code}
    (hleft : Related RewrittenCode left left') (hright : Related RewrittenCode right right')
    (his : Plain (lines is)) : Related RewrittenCode (do
      let l ← left
      let r ← right
      return l ++ r ++ is) (do
      let l ← left'
      let r ← right'
      return l ++ r ++ is) :=
  hleft.bind fun _ _ hl => hright.bind fun _ _ hr => .pure ((hl.append hr).append_plain his)

theorem related_select {cond trueVal falseVal cond' trueVal' falseVal' : Emit Code}
    (hc : Related RewrittenCode cond cond') (ht : Related RewrittenCode trueVal trueVal')
    (hf : Related RewrittenCode falseVal falseVal') : Related RewrittenCode (do
      let uid ← getUID
      let c ← cond
      let t ← trueVal
      let la ← printLabel (.select uid false)
      let e ← falseVal
      let lb ← printLabel (.select uid true)
      return c ++ [.ifeq (.select uid false)] ++ t ++ [gotoToken opts (.select uid true)] ++ la ++
        e ++ lb) (do
      let uid ← getUID
      let c ← cond'
      let t ← trueVal'
      let la ← printLabel (.select uid false)
      let e ← falseVal'
      let lb ← printLabel (.select uid true)
      return c ++ [.ifeq (.select uid false)] ++ t ++
        [gotoToken opts.rewriting (.select uid true)] ++ la ++ e ++ lb) := by
  refine related_getUID.bind_eq fun uid => hc.bind fun c c' hc => ht.bind fun t t' ht =>
    (related_printLabel rfl).bind fun la la' hla => hf.bind fun e e' he =>
      (related_printLabel rfl).bind fun lb lb' hlb => .pure ?_
  have htest : RewrittenCode [.ifeq (.select uid false)] [.ifeq (.select uid false)] :=
    .keep rfl .nil
  exact (((((hc.append htest).append ht).append (.goto rfl)).append hla).append he).append hlb

theorem related_printGepIndex (dl : DataLayout) (ty : GepType) (index : Option Constant)
    (indexTy : Ty) {load load' : Emit Code} (hload : Related RewrittenCode load load') :
    Related RewrittenCode (printGepIndex opts dl ty index indexTy load)
      (printGepIndex opts.rewriting dl ty index indexTy load') := by
  have hconst : ∀ n op, RewrittenCode (printPtrLoad opts n ++ [.arith .i op])
      (printPtrLoad opts n ++ [.arith .i op]) := fun n op =>
    (RewrittenCode.of_plain (plain_printPtrLoad n)).append_plain (by simp [Plain, Line.isPlain])
  unfold printGepIndex
  split
  · exact .pure (hconst _ _)
  · exact .unreachable
  · simp only
    split_ifs
    · exact .pure .nil
    · exact .pure (hconst _ _)
    · exact .pure (hconst _ _)
  · refine hload.bind fun l l' hl => .pure ?_
    exact (((RewrittenCode.of_plain (plain_printPtrLoad _)).append hl).append_plain
      (plain_castCode _ _ _)).append_plain (by simp [Plain, Line.isPlain])

mutual

theorem related_printConstantLoad : ∀ c : Constant,
    Related RewrittenCode (printConstantLoad opts c) (printConstantLoad opts.rewriting c)
  | .function f => by
      simp only [printConstantLoad]
      exact .pure (.of_plain (plain_printFunctionLoad opts f))
  | .globalVariable g => by
      simp only [printConstantLoad]
      exact .pure (.of_plain (by simp [printGlobalLoad, Plain, Line.isPlain]))
  | .null | .undef _ | .aggregateZero _ | .string _ | .dataArray _ _ | .aggregate _ _ => by
      simp only [printConstantLoad]
      exact .pure (.of_plain (plain_printPtrLoad 0))
  | .int w i => by
      simp only [printConstantLoad]
      exact .pure (.of_plain (.of_isPush (isPush_printConstLoadInt _)))
  | .float f => by
      simp only [printConstantLoad]
      exact .pure (.of_plain (.of_isPush (isPush_printConstLoadFloat f)))
  | .double d => by
      simp only [printConstantLoad]
      exact .pure (.of_plain (.of_isPush (isPush_printConstLoadDouble d)))
  | .blockAddress block => by
      simp only [printConstantLoad]
      refine related_get.bind fun w _ hw => ?_
      obtain ⟨_, rfl⟩ := hw
      cases w.basicblockMap.lookup block with
      | none => exact .unreachable
      | some n => exact .pure (.of_plain (.of_isPush (isPush_ldcToken _)))
  | .castExpr op ty c => by
      simp only [printConstantLoad]
      exact related_unary (related_printConstantLoad c) (plain_castCode op ty c.type)
  | .binaryExpr op left right => by
      simp only [printConstantLoad]
      exact related_binary (related_printConstantLoad left) (related_printConstantLoad right)
        (.of_isBinary (isBinary_arithmeticCode _ _ _))
  | .cmpExpr pred left right => by
      simp only [printConstantLoad]
      exact related_binary (related_printConstantLoad left) (related_printConstantLoad right)
        (.of_isBinary (isBinary_cmpCode _ _))
  | .gepExpr base types indices => by
      simp only [printConstantLoad]
      exact (related_printConstantLoad base).bind fun b b' hb =>
        (related_printConstantGep types indices).bind fun i i' hi =>
          .pure ((hb.append_plain (plain_castCode _ _ _)).append hi)
  | .selectExpr cond trueVal falseVal => by
      simp only [printConstantLoad]
      exact related_select (related_printConstantLoad cond) (related_printConstantLoad trueVal)
        (related_printConstantLoad falseVal)

theorem related_printConstantGep : ∀ (types : List GepType) (indices : List Constant),
    Related RewrittenCode (printConstantGep opts types indices)
      (printConstantGep opts.rewriting types indices)
  | [], _ => by
      simp only [printConstantGep]
      exact .pure .nil
  | _ :: _, [] => by
      simp only [printConstantGep]
      exact .pure .nil
  | ty :: types, index :: indices => by
      simp only [printConstantGep]
      exact (related_printGepIndex .jvm ty (some index) index.type
        (related_printConstantLoad index)).bind fun i i' hi =>
          (related_printConstantGep types indices).bind fun is is' his => .pure (hi.append his)

end

theorem related_printValueLoad (v : Value) :
    Related RewrittenCode (printValueLoad opts v) (printValueLoad opts.rewriting v) := by
  cases v with
  | const c => exact related_printConstantLoad c
  | var v => exact (related_getLocalVarNumber v).bind_eq fun _ => .pure (.keep rfl .nil)

theorem related_printValueStore (v : Local) :
    Related RewrittenCode (printValueStore opts v) (printValueStore opts.rewriting v) :=
  (related_getLocalVarNumber v).bind_eq fun _ =>
    .pure ((RewrittenCode.of_plain (plain_truncateCode v.ty)).append (.keep rfl .nil))

end values

end Llxvm.Backend
