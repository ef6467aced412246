import Llxvm.Backend.InstLabels
import Llxvm.Jvm.StackEffects
import Llxvm.Lib.StackShapes

/-!
# The stack effects of lines

What the lines of a method do to the operand stack, and what the loads of values push: a value of
the category of its type, unless a constant is printed with an instruction of the other category.
-/

namespace Llxvm.Backend

open Llxvm.Jvm StackShapes

/-! ## Categories of types -/

theorem intBitWidth_cases (n : ℕ) (expand : Bool) : intBitWidth n expand = 1 ∨
    intBitWidth n expand = 8 ∨ intBitWidth n expand = 16 ∨ intBitWidth n expand = 32 ∨
    intBitWidth n expand = 64 := by
  unfold intBitWidth
  split_ifs <;> omega

def Ty.category (ty : Ty) : Category := (getTypeDescriptor ty false).category

theorem category_getTypeID (ty : Ty) (expand : Bool) :
    (getTypeID ty expand).category = ty.category := by
  cases ty with
  | int w =>
      cases expand with
      | false => rfl
      | true =>
          rcases intBitWidth_cases w.bits false with h | h | h | h | h <;>
            simp [getTypeID, Ty.category, getTypeDescriptor, intBitWidth_expand, h,
              TypeID.category]
  | _ => rfl

theorem category_typeLetter (d : TypeID) : (typeLetter d).category = d.category := by
  cases d <;> rfl

@[simp] theorem category_getTypePrefix (ty : Ty) (expand : Bool) :
    (getTypePrefix ty expand).category = ty.category :=
  (category_typeLetter _).trans (category_getTypeID ty expand)

theorem category_int (w : IntWidth) : (Ty.int w).category = if w.bits ≤ 32 then .one else .two := by
  by_cases h : w.bits = 1 ∨ w.bits = 8 ∨ w.bits = 16 ∨ w.bits = 32
  · rcases h with h | h | h | h <;>
      simp [Ty.category, getTypeDescriptor, getTypeID, intBitWidth, h, TypeID.category]
  · by_cases hlt : w.bits < 32
    · simp [Ty.category, getTypeDescriptor, getTypeID, intBitWidth, h, hlt, TypeID.category,
        Nat.le_of_lt hlt]
    · have hle : ¬ w.bits ≤ 32 := by omega
      simp [Ty.category, getTypeDescriptor, getTypeID, intBitWidth, h, hlt, hle, TypeID.category]

theorem category_eq (ty : Ty) :
    ty.category = if getBitWidth ty false = 64 then .two else .one := by
  cases ty with
  | int w =>
      rcases intBitWidth_cases w.bits false with h | h | h | h | h <;>
        simp [Ty.category, getTypeDescriptor, getTypeID, getBitWidth, h, TypeID.category]
  | _ => rfl

theorem category_of_getBitWidth_eq {ty : Ty} (h : getBitWidth ty false = 64) :
    ty.category = .two := by
  rw [category_eq, if_pos h]

theorem category_of_getBitWidth_ne {ty : Ty} (h : getBitWidth ty false ≠ 64) :
    ty.category = .one := by
  rw [category_eq, if_neg h]

/-! ## Lines -/

/-- What a method with this result leaves. -/
def resultCategories : TypeID → List Category
  | .V => []
  | d => [d.category]

/-- What an instruction takes that returns a value. -/
def returned (text : String) : List Category :=
  if text ∈ ["ireturn", "freturn", "areturn"] then [.one]
  else if text ∈ ["lreturn", "dreturn"] then [.two]
  else []

namespace Line

/-- A call takes the parameters of its descriptor; a path does not go on behind the other
instructions that are given by their texts. -/
def pops : Line → List Category
  | instr i => i.pops
  | call (.method _ m) => (m.params.map TypeID.category).reverse
  | call (.invoke _) => [.one, .one]
  | simple text => returned text
  | lookupswitch _ _ => [.one]
  | catching _ _ _ => []

def pushes : Line → List Category
  | instr i => i.pushes
  | call (.method _ m) => resultCategories m.ret
  | call (.invoke ret) => resultCategories ret
  | _ => []

def falls : Line → Bool
  | instr i => i.falls
  | call _ => true
  | catching _ _ _ => true
  | _ => false

def jumps : Line → List Label
  | instr i => i.jumps
  | lookupswitch cases default => default :: cases.map Prod.snd
  | _ => []

def label : Line → Option Label
  | instr (.label l) => some l
  | _ => none

end Line

/-- A handler begins with the exception. -/
def lineEffects : Effects Line Label Category where
  pops := Line.pops
  pushes := Line.pushes
  falls := Line.falls
  jumps := Line.jumps
  label := Line.label
  catching
    | .catching start stop handler => some (start, stop, handler)
    | _ => none
  caught := [.one]
  neutral := by
    intro l t hl
    unfold Line.label at hl
    split at hl
    · exact ⟨rfl, rfl, rfl, rfl⟩
    · cases hl

/-- The result of `setjmp` or an exception is on the stack behind two kinds of labels.  Where a
`select` stands among other operands decides the stacks at its labels. -/
def labelShape : Label → Option (List Category)
  | .select _ _ => none
  | .setjmp _ => some [.one]
  | .catchJump => some [.one]
  | _ => some []

theorem textLabels_eq (ls : List Line) : textLabels lineEffects ls = labels ls := by
  induction ls with
  | nil => rfl
  | cons l ls ih =>
      rw [labels_cons, ← ih]
      cases l with
      | instr i => cases i <;> rfl
      | _ => rfl

/-! ## Sequences of instructions -/

/-- The text replaces the entries `i` by `o`, if `p`. -/
abbrev Leaves (p : Prop) (ls : List Line) (i o : List Category) : Prop :=
  Yields lineEffects labelShape p ls i o

/-- From the stack `a` on, the text has stacks, and falls with the stack `b`, if at all. -/
abbrev FlowsTo (ls : List Line) (a b : List Category) : Prop := Flows lineEffects labelShape ls a b

theorem strict_instr {i : Instr} (h : i.isStraight) :
    Strict lineEffects labelShape [.instr i] i.pops i.pushes := by
  refine Strict.line ?_ ?_ ?_ <;> cases i <;> first | rfl | cases h

theorem leaves_instr {i : Instr} (h : i.isStraight) : Leaves True [.instr i] i.pops i.pushes :=
  (strict_instr h).yields

theorem leaves_load (p : Prefix) (form : Form) (n : ℕ) :
    Leaves True (lines [.load p form n]) [] [p.category] := leaves_instr rfl

theorem leaves_store (p : Prefix) (form : Form) (n : ℕ) :
    Leaves True (lines [.store p form n]) [p.category] [] := leaves_instr rfl

/-- What straight code makes of a stack. -/
def codeShape : Code → List Category → Option (List Category)
  | [], s => some s
  | i :: is, s =>
      if i.isStraight ∧ i.pops <+: s then codeShape is (i.pushes ++ s.drop i.pops.length) else none

theorem leaves_code {is : Code} {i o : List Category} (h : codeShape is i = some o) :
    Leaves True (lines is) i o := by
  induction is generalizing i with
  | nil =>
      cases h
      exact .nil
  | cons j is ih =>
      rw [codeShape] at h
      split_ifs at h with hj
      obtain ⟨hstraight, hpops⟩ := hj
      obtain ⟨n, rfl⟩ := hpops
      rw [List.drop_left] at h
      exact (((leaves_instr hstraight).frame n).append (ih h)).congr (by simp)

theorem leaves_append {ls js : List Line} {i j k : List Category} (h₁ : Leaves True ls i j)
    (h₂ : Leaves True js j k) : Leaves True (ls ++ js) i k := (h₁.append h₂).congr (by simp)

/-- The code is empty, or replaces one entry and breaks on another one. -/
def Converts (code : Code) (a b : Category) : Prop :=
  code = [] ∧ a = b ∨ code ≠ [] ∧ Strict lineEffects labelShape (lines code) [a] [b]

theorem Converts.leaves {code : Code} {a b : Category} (h : Converts code a b) :
    Leaves True (lines code) [a] [b] := by
  rcases h with ⟨rfl, rfl⟩ | ⟨-, h⟩
  · exact .nil
  · exact h.yields

theorem Converts.append {code code' : Code} {a b c : Category} (h₁ : Converts code a b)
    (h₂ : Converts code' b c) : Converts (code ++ code') a c := by
  rcases h₁ with ⟨rfl, rfl⟩ | ⟨hne, h₁⟩
  · exact h₂
  · rw [Converts, lines_append]
    exact .inr ⟨by simp [hne], h₁.append h₂.leaves⟩

theorem converts_instr {i : Instr} (h : i.isStraight) {a b : Category} (ha : i.pops = [a])
    (hb : i.pushes = [b]) : Converts [i] a b := by
  have hinstr := strict_instr h
  rw [ha, hb] at hinstr
  exact .inr ⟨by simp, hinstr⟩

theorem converts_printCastPrefix (typePrefix srcTypePrefix : Prefix) :
    Converts (printCastPrefix typePrefix srcTypePrefix) srcTypePrefix.category
      typePrefix.category := by
  unfold printCastPrefix
  split_ifs with h
  · exact converts_instr rfl rfl rfl
  · exact .inl ⟨rfl, by rw [not_not.mp h]⟩

theorem leaves_truncateCode {ty : Ty} : Leaves True (lines (truncateCode ty)) [ty.category]
    [ty.category] := by
  unfold truncateCode
  simp only
  split_ifs with h₁ h₂ h₃
  · rw [category_of_getBitWidth_ne (by omega)]
    exact leaves_code rfl
  · rw [category_of_getBitWidth_ne (by omega)]
    exact leaves_code rfl
  · rw [category_of_getBitWidth_ne (by omega)]
    exact leaves_code rfl
  · exact .nil

/-! ## Types of operands -/

namespace Ty

def isInt : Ty → Bool
  | int _ => true
  | _ => false

def isFloatingPoint : Ty → Bool
  | float => true
  | double => true
  | _ => false

def isPointer : Ty → Bool
  | pointer => true
  | _ => false

def primitiveSize : Ty → ℕ
  | int w => w.bits
  | float => 32
  | double => 64
  | _ => 0

end Ty

/-- The casts that LLVM has. -/
def CastOp.IsValid (op : CastOp) (srcTy ty : Ty) : Prop :=
  match op with
  | .trunc => srcTy.isInt ∧ ty.isInt ∧ ty.primitiveSize < srcTy.primitiveSize
  | .zext => srcTy.isInt ∧ ty.isInt ∧ srcTy.primitiveSize < ty.primitiveSize
  | .sext => srcTy.isInt ∧ ty.isInt ∧ srcTy.primitiveSize < ty.primitiveSize
  | .fptrunc => srcTy.isFloatingPoint ∧ ty.isFloatingPoint ∧ ty.primitiveSize < srcTy.primitiveSize
  | .fpext => srcTy.isFloatingPoint ∧ ty.isFloatingPoint ∧ srcTy.primitiveSize < ty.primitiveSize
  | .uitofp => srcTy.isInt ∧ ty.isFloatingPoint
  | .sitofp => srcTy.isInt ∧ ty.isFloatingPoint
  | .fptoui => srcTy.isFloatingPoint ∧ ty.isInt
  | .fptosi => srcTy.isFloatingPoint ∧ ty.isInt
  | .ptrtoint => srcTy.isPointer ∧ ty.isInt
  | .inttoptr => srcTy.isInt ∧ ty.isPointer
  | .bitcast => srcTy.isPointer ∧ ty.isPointer ∨
      0 < srcTy.primitiveSize ∧ srcTy.primitiveSize = ty.primitiveSize

mutual

/-- The operands of constant expressions have the types that the verifier of LLVM asks for. -/
def Constant.Typed : Constant → Prop
  | .castExpr op ty c => op.IsValid c.type ty ∧ c.Typed
  | .binaryExpr _ left right => left.type = right.type ∧ left.Typed ∧ right.Typed
  | .cmpExpr _ left right => left.type = right.type ∧ left.Typed ∧ right.Typed
  | .gepExpr base _ indices => base.type = .pointer ∧ base.Typed ∧ Constant.AllTyped indices
  | .selectExpr cond trueVal falseVal => cond.type = .int .w1 ∧ trueVal.type = falseVal.type ∧
      cond.Typed ∧ trueVal.Typed ∧ falseVal.Typed
  | _ => True

def Constant.AllTyped : List Constant → Prop
  | [] => True
  | c :: cs => c.Typed ∧ Constant.AllTyped cs

end

def Value.Typed : Value → Prop
  | .const c => c.Typed
  | .var _ => True

theorem category_of_isPointer {ty : Ty} (h : ty.isPointer) : ty.category = .one := by
  cases ty <;> first | rfl | cases h

theorem category_of_primitiveSize {ty ty' : Ty} (hpos : 0 < ty.primitiveSize)
    (h : ty.primitiveSize = ty'.primitiveSize) : ty.category = ty'.category := by
  have hcategory : ∀ ty : Ty, 0 < ty.primitiveSize →
      ty.category = if ty.primitiveSize ≤ 32 then .one else .two := by
    intro ty hty
    cases ty with
    | int w => exact category_int w
    | float => rfl
    | double => rfl
    | _ => cases hty
  rw [hcategory ty hpos, hcategory ty' (h ▸ hpos), h]

/-! ## Operations on loaded operands -/

theorem converts_castCode {op : CastOp} {ty srcTy : Ty} (h : op.IsValid srcTy ty) :
    Converts (castCode op ty srcTy) srcTy.category ty.category := by
  have hpre : ∀ (expand expand' : Bool), Converts
      (printCastPrefix (getTypePrefix ty expand) (getTypePrefix srcTy expand'))
      srcTy.category ty.category := by
    intro expand expand'
    have hcast := converts_printCastPrefix (getTypePrefix ty expand) (getTypePrefix srcTy expand')
    rwa [category_getTypePrefix, category_getTypePrefix] at hcast
  -- a narrow operand is first made an `int` of its width
  have hnarrow : Converts ((if getBitWidth srcTy false < 32 then
      printCastPrefix (getTypePrefix srcTy false) .i else []) ++
        printCastPrefix (getTypePrefix ty true) (getTypePrefix srcTy true))
      srcTy.category ty.category := by
    refine .append ?_ (hpre true true)
    split_ifs with hwidth
    · have hcast := converts_printCastPrefix (getTypePrefix srcTy false) .i
      rw [category_getTypePrefix, category_of_getBitWidth_ne (by omega)] at hcast
      rw [category_of_getBitWidth_ne (by omega)]
      exact hcast
    · exact .inl ⟨rfl, rfl⟩
  have hmethod : ∀ m : MethodRef, m.params = [srcTy.category] → m.results = [ty.category] →
      Converts [.invokestatic m] srcTy.category ty.category := by
    intro m hparams hresults
    exact converts_instr rfl (by rw [Instr.pops, hparams, List.reverse_singleton]) hresults
  cases op with
  | sitofp => exact hnarrow
  | fptosi => exact hnarrow
  | fptrunc => exact hnarrow
  | fpext => exact hnarrow
  | sext => exact hnarrow
  | trunc =>
      rw [castCode]
      split_ifs with hwidth
      · have hcast := converts_printCastPrefix (getTypePrefix ty false) .i
        rw [category_getTypePrefix] at hcast
        rw [category_of_getBitWidth_eq hwidth.1]
        have hlong : Converts [.conv .l .i] .two .one := converts_instr rfl rfl rfl
        exact hlong.append hcast
      · exact hpre false true
  | inttoptr =>
      have hcast := converts_printCastPrefix .i (getTypePrefix srcTy true)
      rw [category_getTypePrefix] at hcast
      rw [category_of_isPointer h.2]
      exact hcast
  | ptrtoint =>
      have hcast := converts_printCastPrefix (getTypePrefix ty false) .i
      rw [category_getTypePrefix] at hcast
      rw [category_of_isPointer h.1]
      exact hcast
  | zext =>
      refine hmethod _ ?_ ?_
      · rw [MethodRef.params, getTypeDescriptor, category_getTypeID]
      · rw [MethodRef.results, getTypeDescriptor, category_getTypeID]
  | uitofp =>
      refine hmethod _ ?_ ?_
      · rw [MethodRef.params, FloatOp.params, category_getTypeID]
      · rw [MethodRef.results, FloatOp.result, category_getTypeID]
  | fptoui =>
      refine hmethod _ ?_ ?_
      · rw [MethodRef.params, FloatOp.params, category_getTypeID]
      · rw [MethodRef.results, FloatOp.result, category_getTypeID]
  | bitcast =>
      have hcategory : srcTy.category = ty.category := by
        rcases h with ⟨hsrc, hty⟩ | ⟨hpos, hsize⟩
        · rw [category_of_isPointer hsrc, category_of_isPointer hty]
        · exact category_of_primitiveSize hpos hsize
      change Converts (printBitCastInstruction ty srcTy) srcTy.category ty.category
      unfold printBitCastInstruction
      split
      case h_5 => exact .inl ⟨rfl, hcategory⟩
      all_goals
        next hsrc hty =>
          rw [Ty.category, Ty.category, getTypeDescriptor, getTypeDescriptor, hsrc, hty]
          exact converts_instr rfl rfl rfl

theorem leaves_castCode {op : CastOp} {ty srcTy : Ty} (h : op.IsValid srcTy ty) :
    Leaves True (lines (castCode op ty srcTy)) [srcTy.category] [ty.category] :=
  (converts_castCode h).leaves

/-- A shift by a `long` takes its low word. -/
theorem strict_shift (p : Prefix) {op : ArithOp} (hop : op.isShift = true) :
    Strict lineEffects labelShape (lines [.conv .l .i, .arith p op]) [.two, p.category]
      [p.category] := by
  have harith := strict_instr (i := .arith p op) rfl
  rw [Instr.pops, Instr.pushes, arithParams, hop, if_pos rfl] at harith
  have hconv : Leaves True (lines [.conv .l .i]) [.two] [.one] := leaves_instr rfl
  refine ⟨leaves_append (hconv.frame [p.category]) harith.yields, fun i' r hlength hne => ?_⟩
  obtain ⟨x, y, rfl⟩ := List.length_eq_two.mp hlength
  by_cases hx : x = .two
  · subst hx
    have hy : [Category.one, y] ≠ [.one, p.category] := by
      intro h
      simp only [List.cons.injEq, true_and, and_true] at h
      exact hne (by rw [h])
    exact ((hconv.frame [y] r).straight trivial).passes.breaks
      (harith.breaks [.one, y] r rfl hy)
  · have hpops : ¬ [Category.two] <+: [x, y] ++ r := by
      intro h
      rw [List.cons_append, List.cons_prefix_cons] at h
      exact hx h.1.symm
    exact (Breaks.line hpops).append _

theorem strict_arithmeticCode (op : BinaryOp) {leftTy rightTy : Ty} (h : leftTy = rightTy) :
    Strict lineEffects labelShape (lines (arithmeticCode op leftTy rightTy))
      [rightTy.category, leftTy.category] [leftTy.category] := by
  subst h
  have harith : ∀ jop : ArithOp, jop.isShift = false →
      Strict lineEffects labelShape (lines [.arith (getTypePrefix leftTy true) jop])
        [leftTy.category, leftTy.category] [leftTy.category] := by
    intro jop hjop
    have hinstr := strict_instr (i := .arith (getTypePrefix leftTy true) jop) rfl
    rwa [Instr.pops, Instr.pushes, arithParams, hjop, if_neg (by simp),
      category_getTypePrefix] at hinstr
  have hshift : ∀ jop : ArithOp, jop.isShift = true →
      Strict lineEffects labelShape
        (lines ((if getBitWidth leftTy false = 64 then [.conv .l .i] else []) ++
          [.arith (getTypePrefix leftTy true) jop])) [leftTy.category, leftTy.category]
          [leftTy.category] := by
    intro jop hjop
    split_ifs with hwidth
    · have hstrict := strict_shift (getTypePrefix leftTy true) hjop
      rw [category_getTypePrefix] at hstrict
      rw [category_of_getBitWidth_eq hwidth] at hstrict ⊢
      exact hstrict
    · have hinstr := strict_instr (i := .arith (getTypePrefix leftTy true) jop) rfl
      rw [Instr.pops, Instr.pushes, arithParams, hjop, if_pos rfl, category_getTypePrefix] at hinstr
      rw [category_of_getBitWidth_ne hwidth] at hinstr ⊢
      exact hinstr
  cases op with
  | shl => exact hshift _ rfl
  | lshr => exact hshift _ rfl
  | ashr => exact hshift _ rfl
  | udiv => exact strict_instr rfl
  | urem => exact strict_instr rfl
  | _ => exact harith _ rfl

theorem strict_cmpCode (pred : CmpPredicate) {leftTy rightTy : Ty} (h : leftTy = rightTy) :
    Strict lineEffects labelShape (lines (cmpCode pred leftTy))
      [rightTy.category, leftTy.category] [.one] := by
  subst h
  have hcall : ∀ m : MethodRef, m.params = [(getTypeDescriptor leftTy true).category,
      (getTypeDescriptor leftTy true).category] → m.results = [.one] →
      Strict lineEffects labelShape (lines [.invokestatic m])
        [leftTy.category, leftTy.category] [.one] := by
    intro m hparams hresults
    have hinstr := strict_instr (i := .invokestatic m) rfl
    rwa [Instr.pops, Instr.pushes, hparams, hresults, getTypeDescriptor,
      category_getTypeID] at hinstr
  cases pred with
  | icmp pred => exact hcall _ rfl rfl
  | fcmp pred => exact hcall _ rfl rfl

/-! ## Printing -/

/-- The last label has an old number. -/
def Writer.LastOld (w : Writer) : Prop := ∀ l, w.lastLabel = some l → OldLabel w l

/-- The counters have moved on, and the last label is the same or a new one. -/
structure Moves (w w' : Writer) : Prop extends Later w w' where
  last : w'.lastLabel = w.lastLabel ∨ ∃ l, w'.lastLabel = some l ∧ NewLabel w w' l

section moves

variable {w w₁ w₂ : Writer}

theorem Moves.refl (w : Writer) : Moves w w := ⟨.refl w, .inl rfl⟩

theorem Moves.trans (h₁ : Moves w w₁) (h₂ : Moves w₁ w₂) : Moves w w₂ := by
  refine ⟨h₁.toLater.trans h₂.toLater, ?_⟩
  rcases h₂.last with hlast | ⟨l, hlast, hnew⟩
  · rw [hlast]
    exact h₁.last.imp_right fun ⟨l, hl, hnew⟩ => ⟨l, hl, hnew.mono_right h₂.toLater⟩
  · exact .inr ⟨l, hlast, hnew.mono_left h₁.toLater⟩

theorem Moves.lastOld (h : Moves w w₁) (hw : w.LastOld) : w₁.LastOld := by
  intro l hl
  rcases h.last with hlast | ⟨l', hlast, hnew⟩
  · exact (hw l (hlast ▸ hl)).mono h.toLater
  · cases hlast.symm.trans hl
    exact hnew.old

/-- A label with an old number that is not the last one does not become the last one. -/
theorem Moves.last_ne (h : Moves w w₁) {l : Label} (hne : w.lastLabel ≠ some l)
    (hold : OldLabel w l) : w₁.lastLabel ≠ some l := by
  intro heq
  rcases h.last with hlast | ⟨l', hlast, hnew⟩
  · exact hne (hlast ▸ heq)
  · cases hlast.symm.trans heq
    exact hnew.not_old hold

theorem later_label (w : Writer) (l : Label) : Later w { w with lastLabel := some l } :=
  ⟨le_rfl, le_rfl, le_rfl⟩

theorem Moves.label (h : Moves w w₁) {l : Label} (hnew : NewLabel w w₁ l) :
    Moves w { w₁ with lastLabel := some l } :=
  ⟨h.toLater.trans (later_label w₁ l), .inr ⟨l, rfl, hnew.mono_right (later_label w₁ l)⟩⟩

end moves

/-- What is printed satisfies `P`. -/
def Emits {α : Type} (x : Emit α) (P : α → Prop) : Prop :=
  ∀ ⦃w w' r⦄, w.LastOld → x w = some (r, w') → Moves w w' ∧ P r

section emits

variable {α β : Type} {x : Emit α} {f : α → Emit β} {P Q : α → Prop} {R : β → Prop}

theorem Emits.bind (hx : Emits x P) (hf : ∀ a, P a → Emits (f a) R) : Emits (x >>= f) R := by
  intro w w' r hw hprint
  obtain ⟨a, w₁, ha, hb⟩ := emit_bind_eq_some hprint
  obtain ⟨hmoves, hP⟩ := hx hw ha
  obtain ⟨hmoves', hR⟩ := hf a hP (hmoves.lastOld hw) hb
  exact ⟨hmoves.trans hmoves', hR⟩

theorem Emits.pure {a : α} (h : P a) : Emits (pure a) P := by
  intro w w' r hw hprint
  cases hprint
  exact ⟨.refl w, h⟩

theorem Emits.imp (hx : Emits x P) (h : ∀ a, P a → Q a) : Emits x Q :=
  fun _ _ _ hw hprint => (hx hw hprint).imp_right (h _)

theorem emits_unreachable : Emits (unreachable : Emit α) P := fun _ _ _ _ hprint => by cases hprint

theorem emits_getLocalVarNumber (v : Local) : Emits (getLocalVarNumber v) fun _ => True := by
  intro w w' n hw hprint
  obtain ⟨rfl, -⟩ := getLocalVarNumber_touch hprint
  exact ⟨⟨later_touch w v, .inl (lastLabel_touch w v)⟩, trivial⟩

end emits

/-! ## Constants of the category of their type -/

section fits

variable (opts : GenerationOpts)

/-- With `jvm_wide_ldc`, an `int` that is not in the range of `sipush` is printed with `ldc2_w`. -/
def IntFits {w : ℕ} (i : BitVec w) : Prop :=
  opts.wideLdc = true → w ≤ 32 → -0x8000 ≤ i.toInt ∧ i.toInt ≤ 0x7fff

def PtrFits (n : ℕ) : Prop := IntFits opts (BitVec.ofNat 32 n)

/-- With `jvm_wide_ldc`, a `float` without a short form is printed with `ldc2_w`. -/
def FloatFits (f : BitVec 32) : Prop :=
  opts.wideLdc = true → f &&& 0x7fffffff#32 = 0#32 ∨ f = 0x3f800000#32 ∨ f = 0x40000000#32 ∨
    0x7f800000 < (f &&& 0x7fffffff#32).toNat ∨ f = 0x7f800000#32 ∨ f = 0xff800000#32

/-- The numbers that are printed for one index fit, and `loads` if the index is loaded. -/
def GepIndexFits (ty : GepType) (index : Option Constant) (loads : Prop) : Prop :=
  match ty, index with
  | .struct fields, some (.int _ i) => PtrFits opts (DataLayout.jvm.gepFieldOffset fields i.toNat)
  | .struct _, _ => True
  | .sequential elem, some (.int _ i) =>
      let size := DataLayout.jvm.getTypeAllocSize elem % 2 ^ 32
      if i.toInt = 0 then True
      else if i.toInt < 0 then PtrFits opts (i.toInt.natAbs * size % 2 ^ 64)
      else PtrFits opts (i.toNat * size % 2 ^ 64)
  | .sequential elem, _ => PtrFits opts (DataLayout.jvm.getTypeAllocSize elem % 2 ^ 32) ∧ loads

mutual

/-- What is printed for the constant pushes a value of the category of its type. -/
def Constant.LoadFits : Constant → Prop
  | .function _ => opts.wideLdc = false
  | .blockAddress _ => opts.wideLdc = false
  | .int _ i => IntFits opts i
  | .float f => FloatFits opts f
  | .undef ty => ty.category = .one
  | .aggregateZero ty => ty.category = .one
  | .aggregate ty _ => ty.category = .one
  | .castExpr _ _ c => c.LoadFits
  | .binaryExpr _ left right => left.LoadFits ∧ right.LoadFits
  | .cmpExpr _ left right => left.LoadFits ∧ right.LoadFits
  | .gepExpr base types indices => base.LoadFits ∧ Constant.GepFits types indices
  | .selectExpr cond trueVal falseVal => cond.LoadFits ∧ trueVal.LoadFits ∧ falseVal.LoadFits
  | _ => True

def Constant.GepFits : List GepType → List Constant → Prop
  | ty :: types, index :: indices =>
      GepIndexFits opts ty (some index) index.LoadFits ∧ Constant.GepFits types indices
  | _, _ => True

end

def Value.LoadFits : Value → Prop
  | .const c => c.LoadFits opts
  | .var _ => True

/-- A constant of two words is loaded as the address `0`. -/
def Constant.LoadsAsZero : Constant → Prop
  | .undef _ => True
  | .aggregateZero _ => True
  | .aggregate _ _ => True
  | .castExpr op ty c => castCode op ty c.type = [] ∧ c.LoadsAsZero
  | .selectExpr cond trueVal falseVal =>
      cond.LoadFits opts ∧ trueVal.LoadsAsZero ∧ falseVal.LoadsAsZero
  | _ => False

/-- The load pushes a value of one word, whatever the type is. -/
def Value.LoadsWord (v : Value) : Prop :=
  match v with
  | .const c => if c.type.category = .one then c.LoadFits opts else c.LoadsAsZero opts
  | .var v => v.ty.category = .one

end fits

/-! ## Loads of values -/

/-- Code is printed that replaces the entries `i` by `o`, if `p`. -/
abbrev EmitsCode (x : Emit Code) (p : Prop) (i o : List Category) : Prop :=
  Emits x fun code => Leaves p (lines code) i o

section loads

variable {opts : GenerationOpts} {p q : Prop}

theorem EmitsCode.congr {x : Emit Code} {i o : List Category} (hx : EmitsCode x p i o)
    (hpq : q ↔ p) : EmitsCode x q i o := hx.imp fun _ h => h.congr hpq

theorem emits_append {x y : Emit Code} {i j k : List Category} (hx : EmitsCode x p i j)
    (hy : EmitsCode y q j k) : EmitsCode (do
      let a ← x
      let b ← y
      return a ++ b) (p ∧ q) i k :=
  hx.bind fun _ ha => hy.bind fun _ hb => .pure (by simpa using ha.append hb)

/-- An operand and what is computed of it. -/
theorem emits_unary {x : Emit Code} {is : Code} {i j k : List Category} (hx : EmitsCode x p i j)
    (his : Leaves True (lines is) j k) : EmitsCode (do
      let l ← x
      return l ++ is) p i k :=
  hx.bind fun _ hl => .pure ((by simpa using hl.append his : Leaves (p ∧ True) _ _ _).congr
    (and_true p).symm.to_iff)

/-- Two operands and what is computed of them. -/
theorem emits_binary {left right : Emit Code} {is : Code} {a b : Category} {o : List Category}
    (hleft : EmitsCode left p [] [a]) (hright : EmitsCode right q [] [b])
    (his : Leaves True (lines is) [b, a] o) : EmitsCode (do
      let l ← left
      let r ← right
      return l ++ r ++ is) (p ∧ q) [] o :=
  hleft.bind fun _ hl => hright.bind fun _ hr => .pure (by
    have hall := (hl.append (hr.frame [a])).append his
    simpa using hall)

/-- The two labels of a `select` are its own. -/
theorem emits_select {cond trueVal falseVal : Emit Code} {q' : Prop} {k : Category}
    (hc : EmitsCode cond p [] [.one]) (ht : EmitsCode trueVal q [] [k])
    (hf : EmitsCode falseVal q' [] [k]) : EmitsCode (do
      let uid ← getUID
      let c ← cond
      let t ← trueVal
      let la ← printLabel (.select uid false)
      let e ← falseVal
      let lb ← printLabel (.select uid true)
      return c ++ [.ifeq (.select uid false)] ++ t ++ [gotoToken opts (.select uid true)] ++ la ++
        e ++ lb) (p ∧ q ∧ q') [] [k] := by
  intro w w' is hw hprint
  obtain ⟨uid, w₁, huid, h₁⟩ := emit_bind_eq_some hprint
  obtain ⟨c, w₂, hcond, h₂⟩ := emit_bind_eq_some h₁
  obtain ⟨t, w₃, htrue, h₃⟩ := emit_bind_eq_some h₂
  obtain ⟨la, w₄, hla, h₄⟩ := emit_bind_eq_some h₃
  obtain ⟨e, w₅, hfalse, h₅⟩ := emit_bind_eq_some h₄
  obtain ⟨lb, w₆, hlb, h₆⟩ := emit_bind_eq_some h₅
  clear hprint h₁ h₂ h₃ h₄ h₅
  cases h₆
  rw [getUID_eq] at huid
  cases huid
  have hfirst : Moves w { w with uid := w.uid + 1 } := ⟨⟨Nat.le_succ _, le_rfl, le_rfl⟩, .inl rfl⟩
  have hnew : ∀ b, NewLabel w { w with uid := w.uid + 1 } (.select (w.uid + 1) b) := by
    intro b
    simp [NewLabel]
  have hne : ∀ b, w.lastLabel ≠ some (.select (w.uid + 1) b) :=
    fun b heq => (hnew b).not_old (hw _ heq)
  obtain ⟨hmoves₂, hleaves₂⟩ := hc (hfirst.lastOld hw) hcond
  have hto₂ := hfirst.trans hmoves₂
  obtain ⟨hmoves₃, hleaves₃⟩ := ht (hto₂.lastOld hw) htrue
  have hto₃ := hmoves₂.trans hmoves₃
  rw [printLabel_of_ne (hto₃.last_ne (hne false) (hnew false).old)] at hla
  cases hla
  have hto₄ := (hfirst.trans hto₃).label ((hnew false).mono_right hto₃.toLater)
  obtain ⟨hmoves₅, hleaves₅⟩ := hf (hto₄.lastOld hw) hfalse
  have hto₅ := hto₄.trans hmoves₅
  have hnew₄ : ∀ b, NewLabel w _ (.select (w.uid + 1) b) :=
    fun b => ((hnew b).mono_right hto₃.toLater).mono_right
      (later_label w₃ (.select (w.uid + 1) false))
  rw [printLabel_of_ne (hmoves₅.last_ne (by simp) (hnew₄ true).old)] at hlb
  cases hlb
  refine ⟨hto₅.label ((hnew₄ true).mono_right hmoves₅.toLater), ?_⟩
  have hchoice : Choice (e := lineEffects) .one (.instr (.ifeq (.select (w.uid + 1) false)))
      (.instr (gotoToken opts (.select (w.uid + 1) true)))
      (.instr (.label (.select (w.uid + 1) false))) (.instr (.label (.select (w.uid + 1) true)))
      (.select (w.uid + 1) false) (.select (w.uid + 1) true) :=
    ⟨⟨rfl, rfl, rfl, rfl, rfl⟩, ⟨rfl, rfl, rfl, rfl⟩, rfl, rfl⟩
  simpa using hchoice.yields hleaves₂ hleaves₃ hleaves₅ rfl rfl

/-- With `jvm_wide_ldc` every `ldc` becomes an `ldc2_w`. -/
theorem leaves_ldcToken (text : Literal) :
    Leaves (opts.wideLdc = false) (lines [ldcToken opts text]) [] [.one] := by
  unfold ldcToken
  cases opts.wideLdc with
  | false => exact (leaves_code rfl).congr (by simp)
  | true =>
      have hwide : Leaves False (lines [.ldc2_w text]) [] [.one] :=
        Yields.other (x := .two) rfl rfl rfl (by simp)
      exact hwide.congr (by simp)

theorem leaves_printConstLoadInt {w : ℕ} (i : BitVec w) :
    Leaves (IntFits opts i) (lines (printConstLoadInt opts i)) []
      [if w ≤ 32 then .one else .two] := by
  have hpush : ∀ {is : Code} {k : Category}, codeShape is [] = some [k] → IntFits opts i →
      Leaves (IntFits opts i) (lines is) [] [k] :=
    fun hshape hfits => (leaves_code hshape).congr (by simp [hfits])
  unfold printConstLoadInt
  simp only
  split_ifs with hw h₁ h₂ h₃ h₄ h₅ h₆ h₇
  · exact hpush rfl fun _ _ => by omega
  · exact hpush rfl fun _ _ => by omega
  · exact hpush rfl fun _ _ => by omega
  · exact hpush rfl fun _ _ => by omega
  · refine (leaves_ldcToken _).congr ⟨fun h => ?_, fun h hwide => ?_⟩
    · by_contra hwide
      exact h₄ (h (Bool.eq_true_of_not_eq_false hwide) hw)
    · simp [h] at hwide
  · exact hpush rfl fun _ h => absurd h hw
  · exact hpush rfl fun _ h => absurd h hw
  · exact hpush rfl fun _ h => absurd h hw
  · exact hpush rfl fun _ h => absurd h hw

theorem leaves_printPtrLoad (n : ℕ) :
    Leaves (PtrFits opts n) (lines (printPtrLoad opts n)) [] [.one] :=
  leaves_printConstLoadInt (BitVec.ofNat 32 n)

theorem leaves_printPtrLoad_zero : Leaves True (lines (printPtrLoad opts 0)) [] [.one] :=
  leaves_code rfl

theorem leaves_printConstLoadFloat (f : BitVec 32) :
    Leaves (FloatFits opts f) (lines (printConstLoadFloat opts f)) [] [.one] := by
  have hpush : ∀ {is : Code}, codeShape is [] = some [.one] → FloatFits opts f →
      Leaves (FloatFits opts f) (lines is) [] [.one] :=
    fun hshape hfits => (leaves_code hshape).congr (by simp [hfits])
  unfold printConstLoadFloat
  split_ifs with h₁ h₂ h₃ h₄ h₅ h₆
  · exact hpush rfl fun _ => .inl h₁
  · exact hpush rfl fun _ => .inr (.inl h₂)
  · exact hpush rfl fun _ => .inr (.inr (.inl h₃))
  · exact hpush rfl fun _ => .inr (.inr (.inr (.inl h₄)))
  · exact hpush rfl fun _ => .inr (.inr (.inr (.inr (.inl h₅))))
  · exact hpush rfl fun _ => .inr (.inr (.inr (.inr (.inr h₆))))
  · refine (leaves_ldcToken _).congr ⟨fun h => ?_, fun h hwide => ?_⟩
    · by_contra hwide
      have hshort := h (Bool.eq_true_of_not_eq_false hwide)
      simp only [h₁, h₂, h₃, h₄, h₅, h₆, or_self] at hshort
    · simp [h] at hwide

theorem leaves_printConstLoadDouble (d : BitVec 64) :
    Leaves True (lines (printConstLoadDouble d)) [] [.two] := by
  unfold printConstLoadDouble
  split_ifs <;> exact leaves_code rfl

/-- The address `0` for a constant that has a type. -/
theorem leaves_printPtrLoad_of_type (ty : Ty) :
    Leaves (ty.category = .one) (lines (printPtrLoad opts 0)) [] [ty.category] := by
  cases h : ty.category with
  | one => exact leaves_printPtrLoad_zero.congr (by simp)
  | two =>
      have hother : Leaves False (lines (printPtrLoad opts 0)) [] [.two] :=
        Yields.other (x := .one) rfl rfl rfl (by simp)
      exact hother.congr (by simp)

theorem leaves_printFunctionLoad (f : FunctionRef) :
    Leaves (opts.wideLdc = false) (lines (printFunctionLoad opts f)) [] [.one] := by
  have hclass : Leaves (opts.wideLdc = false ∨ f.external = true)
      (lines [if f.external then .classForMethod (methodName f)
        else ldcToken opts (.className .self)]) [] [.one] := by
    split_ifs with hexternal
    · exact (leaves_code rfl).congr (by simp [hexternal])
    · exact (leaves_ldcToken _).congr (by simp [hexternal])
  have hmethod := (@leaves_ldcToken opts (.methodName (methodName f))).frame [.one]
  have hcall : Leaves True (lines [.invokestatic .getFunctionPointer]) [.one, .one] [.one] :=
    leaves_code rfl
  exact ((hclass.append hmethod).append hcall).congr (by tauto)

/-- The code of one index of a `getelementptr`. -/
theorem emits_printGepIndex (ty : GepType) (index : Option Constant) (indexTy : Ty)
    {loadIndex : Emit Code} (hload : EmitsCode loadIndex p [] [indexTy.category]) :
    EmitsCode (printGepIndex opts .jvm ty index indexTy loadIndex)
      (GepIndexFits opts ty index p) [.one] [.one] := by
  have hpush : ∀ (n : ℕ) (op : ArithOp), op.isShift = false →
      Leaves (PtrFits opts n) (lines (printPtrLoad opts n ++ [.arith .i op])) [.one] [.one] := by
    intro n op hop
    have hop : Leaves True (lines [.arith .i op]) [.one, .one] [.one] := by
      have hinstr := leaves_instr (i := .arith .i op) rfl
      rwa [Instr.pops, arithParams, hop] at hinstr
    rw [lines_append]
    exact (((leaves_printPtrLoad n).frame [.one]).append hop).congr (by simp)
  unfold printGepIndex GepIndexFits
  split
  · exact .pure (hpush _ _ rfl)
  · exact emits_unreachable
  · simp only
    split_ifs
    · exact .pure .nil
    · exact .pure (hpush _ _ rfl)
    · exact .pure (hpush _ _ rfl)
  · next elem hindex =>
      refine hload.bind fun load hload => .pure ?_
      have hcast := converts_printCastPrefix .i (getTypePrefix indexTy true)
      rw [category_getTypePrefix] at hcast
      have hsize := (@leaves_printPtrLoad opts
        (DataLayout.jvm.getTypeAllocSize elem % 2 ^ 32)).frame [.one]
      have hop : Leaves True (lines [.arith .i .mul, .arith .i .add]) [.one, .one, .one] [.one] :=
        leaves_code rfl
      have hall := ((hsize.append (hload.frame [.one, .one])).append
        (hcast.leaves.frame [.one, .one])).append hop
      exact (by simpa [castCode] using hall : Leaves _ _ _ _).congr (by simp)

theorem emits_blockAddress (block : String) : EmitsCode (do
    match (← get).basicblockMap.lookup block with
    | some bsid => return [ldcToken opts (.int bsid)]
    | none => unreachable) (opts.wideLdc = false) [] [.one] := by
  intro w w' is hw hprint
  simp only [emit_bind, emit_get, Option.bind_some] at hprint
  cases hlookup : w.basicblockMap.lookup block with
  | none =>
      rw [hlookup] at hprint
      cases hprint
  | some bsid =>
      rw [hlookup] at hprint
      cases hprint
      exact ⟨.refl w, leaves_ldcToken _⟩

mutual

theorem emits_printConstantLoad : ∀ c : Constant, c.Typed →
    EmitsCode (printConstantLoad opts c) (c.LoadFits opts) [] [c.type.category]
  | .function f, _ => by
      rw [printConstantLoad]
      exact .pure (leaves_printFunctionLoad f)
  | .globalVariable g, _ => by
      rw [printConstantLoad]
      exact .pure (leaves_code rfl)
  | .null, _ => by
      rw [printConstantLoad]
      exact .pure leaves_printPtrLoad_zero
  | .int w i, _ => by
      rw [printConstantLoad, Constant.type, category_int]
      exact .pure (leaves_printConstLoadInt i)
  | .float f, _ => by
      rw [printConstantLoad]
      exact .pure (leaves_printConstLoadFloat f)
  | .double d, _ => by
      rw [printConstantLoad]
      exact .pure (leaves_printConstLoadDouble d)
  | .undef ty, _ => by
      rw [printConstantLoad]
      exact .pure (leaves_printPtrLoad_of_type ty)
  | .blockAddress block, _ => by
      rw [printConstantLoad]
      exact emits_blockAddress block
  | .aggregateZero ty, _ => by
      rw [printConstantLoad]
      exact .pure (leaves_printPtrLoad_of_type ty)
  | .string bytes, _ => by
      rw [printConstantLoad]
      exact .pure leaves_printPtrLoad_zero
  | .dataArray elem elems, _ => by
      rw [printConstantLoad]
      exact .pure leaves_printPtrLoad_zero
  | .aggregate ty operands, _ => by
      rw [printConstantLoad]
      exact .pure (leaves_printPtrLoad_of_type ty)
  | .castExpr op ty c, h => by
      rw [printConstantLoad]
      exact emits_unary (emits_printConstantLoad c h.2) (leaves_castCode h.1)
  | .binaryExpr op left right, h => by
      rw [printConstantLoad]
      exact emits_binary (emits_printConstantLoad left h.2.1) (emits_printConstantLoad right h.2.2)
        (strict_arithmeticCode op h.1).yields
  | .cmpExpr pred left right, h => by
      rw [printConstantLoad]
      exact emits_binary (emits_printConstantLoad left h.2.1) (emits_printConstantLoad right h.2.2)
        (strict_cmpCode pred h.1).yields
  | .gepExpr base types indices, h => by
      rw [printConstantLoad]
      refine (emits_printConstantLoad base h.2.1).bind fun b hb =>
        (emits_printConstantGep types indices h.2.2).bind fun i hi => .pure ?_
      have hcast := converts_printCastPrefix .i (getTypePrefix base.type true)
      rw [category_getTypePrefix] at hcast
      have hall := (hb.append hcast.leaves).append hi
      exact (by simpa [castCode] using hall : Leaves _ _ [] [.one]).congr
        (by simp [Constant.LoadFits])
  | .selectExpr cond trueVal falseVal, h => by
      rw [printConstantLoad]
      obtain ⟨hcond, htypes, hcondTyped, htrue, hfalse⟩ := h
      have hc := emits_printConstantLoad cond hcondTyped
      rw [hcond] at hc
      have hf := emits_printConstantLoad falseVal hfalse
      rw [← htypes] at hf
      exact emits_select hc (emits_printConstantLoad trueVal htrue) hf

theorem emits_printConstantGep : ∀ (types : List GepType) (indices : List Constant),
    Constant.AllTyped indices → EmitsCode (printConstantGep opts types indices)
      (Constant.GepFits opts types indices) [.one] [.one]
  | [], _, _ => by
      simp only [printConstantGep, Constant.GepFits]
      exact .pure .nil
  | _ :: _, [], _ => by
      simp only [printConstantGep, Constant.GepFits]
      exact .pure .nil
  | ty :: types, index :: indices, h => by
      rw [printConstantGep]
      exact emits_append (emits_printGepIndex ty (some index) index.type
        (emits_printConstantLoad index h.1)) (emits_printConstantGep types indices h.2)

end

/-- A wide constant that is not loaded as `0` is not loaded as a value of one word. -/
theorem emits_wide : ∀ c : Constant, c.Typed → c.type.category = .two →
    EmitsCode (printConstantLoad opts c) (c.LoadsAsZero opts) [] [.one]
  | .undef ty, _, _ => by
      rw [printConstantLoad]
      exact .pure leaves_printPtrLoad_zero
  | .aggregateZero ty, _, _ => by
      rw [printConstantLoad]
      exact .pure leaves_printPtrLoad_zero
  | .aggregate ty operands, _, _ => by
      rw [printConstantLoad]
      exact .pure leaves_printPtrLoad_zero
  | .int w i, _, h => by
      rw [printConstantLoad]
      rw [Constant.type, category_int] at h
      have hw : ¬ w.bits ≤ 32 := fun hle => by simp [hle] at h
      refine .pure ?_
      rw [printConstLoadInt, if_neg hw]
      split_ifs <;> exact Yields.other (x := .two) rfl rfl rfl (by simp)
  | .double d, _, _ => by
      rw [printConstantLoad]
      refine .pure ?_
      unfold printConstLoadDouble
      split_ifs <;> exact Yields.other (x := .two) rfl rfl rfl (by simp)
  | .castExpr op ty c, h, hty => by
      rw [printConstantLoad]
      rcases converts_castCode h.1 with ⟨hnil, hcategory⟩ | ⟨hne, hstrict⟩
      · have hload := emits_wide c h.2 (hcategory.trans hty)
        refine hload.bind fun load hload => .pure ?_
        rw [hnil, List.append_nil]
        exact hload.congr (by simp [Constant.LoadsAsZero, hnil])
      · refine (emits_printConstantLoad c h.2).bind fun load hload => .pure ?_
        have hother := Yields.append_other hload hstrict (y := .one)
          (by rw [show ty.category = .two from hty]; simp)
        simpa [Constant.LoadsAsZero, hne] using hother
  | .binaryExpr op left right, h, hty => by
      rw [printConstantLoad]
      refine (emits_printConstantLoad left h.2.1).bind fun l hl =>
        (emits_printConstantLoad right h.2.2).bind fun r hr => .pure ?_
      have hoperands := hl.append (hr.frame [left.type.category])
      have hother := Yields.append_other hoperands (strict_arithmeticCode op h.1) (y := .one)
        (by rw [show left.type.category = .two from hty]; simp)
      simpa [Constant.LoadsAsZero] using hother
  | .selectExpr cond trueVal falseVal, h, hty => by
      rw [printConstantLoad]
      obtain ⟨hcond, htypes, hcondTyped, htrue, hfalse⟩ := h
      have hc := @emits_printConstantLoad opts cond hcondTyped
      rw [hcond] at hc
      exact emits_select hc (emits_wide trueVal htrue hty)
        (emits_wide falseVal hfalse (htypes ▸ hty))

theorem emits_printValueLoad {v : Value} (h : v.Typed) :
    EmitsCode (printValueLoad opts v) (v.LoadFits opts) [] [v.type.category] := by
  cases v with
  | const c => exact emits_printConstantLoad c h
  | var v =>
      refine (emits_getLocalVarNumber v).bind fun n _ => .pure ?_
      have hload := leaves_load (getTypePrefix v.ty true) (localForm opts n) n
      rwa [category_getTypePrefix] at hload

theorem emits_word {v : Value} (h : v.Typed) :
    EmitsCode (printValueLoad opts v) (v.LoadsWord opts) [] [.one] := by
  cases v with
  | const c =>
      cases hc : c.type.category with
      | one =>
          have hload := @emits_printConstantLoad opts c h
          rw [hc] at hload
          exact hload.congr (by simp [Value.LoadsWord, hc])
      | two => exact (emits_wide c h hc).congr (by simp [Value.LoadsWord, hc])
  | var v =>
      refine (emits_getLocalVarNumber v).bind fun n _ => .pure ?_
      have hload := leaves_load (getTypePrefix v.ty true) (localForm opts n) n
      rw [category_getTypePrefix] at hload
      cases hv : v.ty.category with
      | one =>
          rw [hv] at hload
          exact hload.congr (by simp [Value.LoadsWord, hv])
      | two =>
          have hother : Leaves False (lines [.load (getTypePrefix v.ty true) (localForm opts n) n])
              [] [.one] := by
            refine Yields.other (x := v.ty.category) rfl ?_ rfl (by simp [hv])
            exact congrArg (fun k => [k]) (category_getTypePrefix v.ty true)
          exact hother.congr (by simp [Value.LoadsWord, hv])

theorem emits_printValueStore (v : Local) :
    EmitsCode (printValueStore opts v) True [v.ty.category] [] := by
  refine (emits_getLocalVarNumber v).bind fun n _ => .pure ?_
  have hstore := leaves_store (getTypePrefix v.ty true) (localForm opts n) n
  rw [category_getTypePrefix] at hstore
  rw [lines_append]
  exact leaves_append leaves_truncateCode hstore

end loads

end Llxvm.Backend
