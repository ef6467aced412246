import Llxvm.Backend.Writer

/-!
# Names of global variables and functions

`getValueName` of a global value: the name that LLVM's `Mangler` makes of it, with every
character that is not alphanumeric replaced by an underscore.  Fields and methods are declared and
referred to by these names.
-/

namespace Llxvm.Backend

open Llxvm.Jvm

/-! ## Sanitized names -/

/-- `isalnum` in the C locale. -/
def isalnum (c : BitVec 8) : Bool :=
  let n := c.toNat
  (0x30 ≤ n && n ≤ 0x39) || (0x41 ≤ n && n ≤ 0x5a) || (0x61 ≤ n && n ≤ 0x7a)

/-- One turn of the loop of `sanitizeName`. -/
def sanitizeChar (c : BitVec 8) : Char := if isalnum c then Char.ofNat c.toNat else '_'

def sanitizeName (name : List (BitVec 8)) : String := String.ofList (name.map sanitizeChar)

/-- Two characters that become one: the same, or both not alphanumeric. -/
def SameSanitized (x y : BitVec 8) : Prop := x = y ∨ isalnum x = false ∧ isalnum y = false

instance (x y : BitVec 8) : Decidable (SameSanitized x y) := by
  unfold SameSanitized
  infer_instance

/-- Two names of one length that differ only where neither character is alphanumeric. -/
def Confusable (a b : List (BitVec 8)) : Prop := List.Forall₂ SameSanitized a b

theorem toNat_sanitizeChar {c : BitVec 8} (h : isalnum c) : (sanitizeChar c).toNat = c.toNat := by
  have hlt : c.toNat < 256 := c.isLt
  have hvalid : c.toNat.isValidChar := .inl (by omega)
  rw [sanitizeChar, if_pos h, Char.ofNat, dif_pos hvalid]
  rfl

theorem sanitizeChar_ne_underscore {c : BitVec 8} (h : isalnum c) : sanitizeChar c ≠ '_' := by
  intro heq
  have hnat := congrArg Char.toNat heq
  rw [toNat_sanitizeChar h] at hnat
  have hunderscore : c.toNat = 0x5f := hnat
  simp [isalnum, hunderscore] at h

theorem sanitizeChar_eq_iff (x y : BitVec 8) :
    sanitizeChar x = sanitizeChar y ↔ SameSanitized x y := by
  constructor
  · intro h
    by_cases hx : isalnum x
    · by_cases hy : isalnum y
      · left
        apply BitVec.eq_of_toNat_eq
        rw [← toNat_sanitizeChar hx, h, toNat_sanitizeChar hy]
      · rw [sanitizeChar, sanitizeChar, if_neg hy] at h
        exact (sanitizeChar_ne_underscore hx (by rw [sanitizeChar]; exact h)).elim
    · by_cases hy : isalnum y
      · exact (sanitizeChar_ne_underscore hy (by rw [← h, sanitizeChar, if_neg hx])).elim
      · exact .inr ⟨by simpa using hx, by simpa using hy⟩
  · rintro (rfl | ⟨hx, hy⟩)
    · rfl
    · simp [sanitizeChar, hx, hy]

theorem map_sanitizeChar_eq_iff (a b : List (BitVec 8)) :
    a.map sanitizeChar = b.map sanitizeChar ↔ Confusable a b := by
  unfold Confusable
  induction a generalizing b with
  | nil =>
      cases b with
      | nil => simp
      | cons y b => exact iff_of_false (by simp) fun h => by cases h
  | cons x a ih =>
      cases b with
      | nil => exact iff_of_false (by simp) fun h => by cases h
      | cons y b => simp only [List.map_cons, List.cons.injEq, List.forall₂_cons, ih,
          sanitizeChar_eq_iff]

theorem sanitizeName_eq_iff (a b : List (BitVec 8)) :
    sanitizeName a = sanitizeName b ↔ Confusable a b := by
  rw [← map_sanitizeChar_eq_iff]
  exact ⟨String.ofList_injective, congrArg String.ofList⟩

/-! ## Modules -/

/-- A global variable or a function in the symbol table of a module. -/
structure GlobalValue where
  id : ℕ
  name : List (BitVec 8)
  isDeclaration : Bool
  deriving DecidableEq

/-- `Mangler::getNameWithPrefix`, which belongs to LLVM. -/
abbrev Mangler := GlobalValue → List (BitVec 8)

structure FunctionDecl where
  value : GlobalValue
  type : FunctionType

/-- The names of intrinsic functions begin with `llvm.`. -/
def FunctionDecl.isIntrinsic (f : FunctionDecl) : Bool :=
  [0x6c, 0x6c, 0x76, 0x6d, 0x2e].isPrefixOf f.value.name

structure ModuleDef where
  globals : List GlobalValue
  functions : List FunctionDecl
  /-- The functions that are called by their names. -/
  called : List FunctionDecl
  called_mem : ∀ f ∈ called, f ∈ functions
  not_isIntrinsic : ∀ f ∈ called, f.isIntrinsic = false

section names

variable (mangler : Mangler)

def getValueName (gv : GlobalValue) : String := sanitizeName (mangler gv)

/-- A global variable as the writer refers to it; declarations are in `externRefs`. -/
def GlobalValue.ref (g : GlobalValue) : GlobalRef := ⟨getValueName mangler g, g.isDeclaration⟩

def FunctionDecl.ref (f : FunctionDecl) : FunctionRef :=
  ⟨getValueName mangler f.value, f.type, f.value.isDeclaration⟩

/-- The method that is declared for a function: by `printExternalMethods` with its call signature,
or by `printFunction` with the parameters of its definition. -/
def FunctionDecl.declared (f : FunctionDecl) : Option MethodName :=
  if f.value.isDeclaration then
    if f.isIntrinsic then none else some (methodName (f.ref mangler))
  else some ⟨getValueName mangler f.value, declaredParams f.type.params f.type.isVarArg,
    (getCallSignature f.type).2⟩

/-- The global variable that a reference denotes: the first one declared under its name. -/
def ModuleDef.resolveField (m : ModuleDef) : FieldRef → Option GlobalValue
  | .global name _ => m.globals.find? fun g => getValueName mangler g = name
  | _ => none

/-- The function that a call denotes: the first one whose method has the name and descriptor. -/
def ModuleDef.resolveMethod (m : ModuleDef) (name : MethodName) : Option FunctionDecl :=
  m.functions.find? fun f => f.declared mangler = some name

/-- Functions of one call signature have different names, no field and no method is declared twice,
and every reference that is printed denotes what it was printed for. -/
structure NamesDistinct (m : ModuleDef) : Prop where
  fields : m.globals.Pairwise fun g h => getValueName mangler g ≠ getValueName mangler h
  methods : m.functions.Pairwise fun f g => getCallSignature f.type = getCallSignature g.type →
    getValueName mangler f.value ≠ getValueName mangler g.value
  declared : m.functions.Pairwise fun f g =>
    ∀ n ∈ f.declared mangler, n ∉ g.declared mangler
  getstatic : ∀ g ∈ m.globals, ∃ r, printGlobalLoad (g.ref mangler) = [.getstatic r] ∧
    m.resolveField mangler r = some g
  invokestatic : ∀ f ∈ m.called, m.resolveMethod mangler (methodName (f.ref mangler)) = some f

/-- A function is defined without a prototype: calls of it do not have the parameter for the
variadic arguments. -/
def FunctionDecl.DefinedWithoutPrototype (f : FunctionDecl) : Prop :=
  f.value.isDeclaration = false ∧ f.type.isVarArg = true ∧ f.type.params = []

/-- The parameters and the result of the method that is declared for a function. -/
def FunctionDecl.descriptor (f : FunctionDecl) : Option (List TypeID × TypeID) :=
  if f.value.isDeclaration then if f.isIntrinsic then none else some (getCallSignature f.type)
  else some (declaredParams f.type.params f.type.isVarArg, (getCallSignature f.type).2)

/-- No two global variables, and no two functions of one call signature or with methods of one
descriptor, have names that become one, and no function that is defined without a prototype is
called. -/
structure NotConfusable (m : ModuleDef) : Prop where
  globals : m.globals.Pairwise fun g h => ¬ Confusable (mangler g) (mangler h)
  functions : m.functions.Pairwise fun f g =>
    getCallSignature f.type = getCallSignature g.type ∨
      (∃ d ∈ f.descriptor, d ∈ g.descriptor) → ¬ Confusable (mangler f.value) (mangler g.value)
  called : ∀ f ∈ m.called, ¬ f.DefinedWithoutPrototype

variable {mangler}

/-- Where at most one entry satisfies a predicate, it is the first one. -/
theorem find?_eq_of_pairwise {α : Type} {p : α → Bool} {l : List α}
    (h : l.Pairwise fun a b => ¬ (p a ∧ p b)) {a : α} (ha : a ∈ l) (hp : p a) :
    l.find? p = some a := by
  induction l with
  | nil => cases ha
  | cons b l ih =>
      rw [List.pairwise_cons] at h
      rcases List.mem_cons.mp ha with rfl | ha
      · rw [List.find?_cons_of_pos hp]
      · have hb : ¬ p b := fun hb => h.1 a ha ⟨hb, hp⟩
        rw [List.find?_cons_of_neg hb]
        exact ih h.2 ha

theorem getValueName_ne_iff (g h : GlobalValue) :
    getValueName mangler g ≠ getValueName mangler h ↔ ¬ Confusable (mangler g) (mangler h) :=
  (sanitizeName_eq_iff _ _).not

theorem mem_declared_iff (f : FunctionDecl) (n : MethodName) : n ∈ f.declared mangler ↔
    n.name = getValueName mangler f.value ∧ (n.params, n.ret) ∈ f.descriptor := by
  obtain ⟨name, params, ret⟩ := n
  unfold FunctionDecl.declared FunctionDecl.descriptor methodName
  split_ifs <;> simp [FunctionDecl.ref, Prod.ext_iff, eq_comm]

theorem getCallSignature_fst_eq_iff (ty : FunctionType) :
    (getCallSignature ty).1 = declaredParams ty.params ty.isVarArg ↔
      ¬ (ty.isVarArg = true ∧ ty.params = []) := by
  unfold getCallSignature declaredParams
  by_cases h : ty.isVarArg = true ∧ ty.params = []
  · simp [h]
  · simp only [if_neg h]
    exact iff_of_true trivial h

/-- The method that is declared for a function has the name and descriptor of its calls, unless it
is defined without a prototype. -/
theorem methodName_mem_declared_iff {f : FunctionDecl} (hf : f.isIntrinsic = false) :
    methodName (f.ref mangler) ∈ f.declared mangler ↔ ¬ f.DefinedWithoutPrototype := by
  rw [mem_declared_iff, FunctionDecl.descriptor, FunctionDecl.DefinedWithoutPrototype]
  cases hdecl : f.value.isDeclaration with
  | true => simp [hf, methodName, FunctionDecl.ref]
  | false =>
      simp only [Bool.false_eq_true, if_false, true_and, methodName, FunctionDecl.ref,
        Option.mem_def, Option.some.injEq, Prod.mk.injEq, and_true]
      rw [eq_comm]
      exact getCallSignature_fst_eq_iff f.type

variable (mangler)

/-- The names of a module stay distinct exactly if no two of them become one, and no method is
called with a descriptor that it is not defined with. -/
theorem namesDistinct_iff (m : ModuleDef) : NamesDistinct mangler m ↔ NotConfusable mangler m := by
  constructor
  · intro h
    refine ⟨h.fields.imp fun hne => (getValueName_ne_iff _ _).mp hne,
      (h.methods.and h.declared).imp fun {f g} hne hsig => ?_, fun f hf => ?_⟩
    · rcases hsig with hsig | ⟨d, hd, hd'⟩
      · exact (getValueName_ne_iff _ _).mp (hne.1 hsig)
      · apply (getValueName_ne_iff _ _).mp
        intro heq
        refine hne.2 ⟨getValueName mangler f.value, d.1, d.2⟩ ?_ ?_
        · exact (mem_declared_iff _ _).mpr ⟨rfl, hd⟩
        · exact (mem_declared_iff _ _).mpr ⟨heq, hd'⟩
    · have hfound := List.find?_some (h.invokestatic f hf)
      exact (methodName_mem_declared_iff (m.not_isIntrinsic f hf)).mp (by simpa using hfound)
  · intro h
    have hfields : m.globals.Pairwise fun g h => getValueName mangler g ≠ getValueName mangler h :=
      h.globals.imp fun hne => (getValueName_ne_iff _ _).mpr hne
    have hdeclared : m.functions.Pairwise fun f g =>
        ∀ n ∈ f.declared mangler, n ∉ g.declared mangler := by
      refine h.functions.imp fun {f g} hne n hn hn' => ?_
      obtain ⟨hname, hd⟩ := (mem_declared_iff f n).mp hn
      obtain ⟨hname', hd'⟩ := (mem_declared_iff g n).mp hn'
      exact (getValueName_ne_iff _ _).mpr (hne (.inr ⟨_, hd, hd'⟩)) (hname.symm.trans hname')
    refine ⟨hfields,
      h.functions.imp fun hne hsig => (getValueName_ne_iff _ _).mpr (hne (.inl hsig)),
      hdeclared, fun g hg => ⟨_, rfl, ?_⟩, fun f hf => ?_⟩
    · refine find?_eq_of_pairwise (hfields.imp fun hne hboth => ?_) hg ?_
      · simp only [decide_eq_true_eq] at hboth
        exact hne (hboth.1.trans hboth.2.symm)
      · exact decide_eq_true rfl
    · refine find?_eq_of_pairwise (hdeclared.imp fun hne hboth => ?_) (m.called_mem f hf) ?_
      · simp only [decide_eq_true_eq] at hboth
        exact hne _ hboth.1 hboth.2
      · simpa using (methodName_mem_declared_iff (m.not_isIntrinsic f hf)).mpr (h.called f hf)

end names

/-- The variable `n` of a function `f`, which clang names `f.n`, and a variable `f_n`; without a
mangling mode the names stay as they are. -/
theorem not_namesDistinct_static :
    ¬ ∀ (mangler : Mangler) (m : ModuleDef), NamesDistinct mangler m := by
  intro h
  have hconfusable := (namesDistinct_iff _ _).mp
    (h GlobalValue.name ⟨[⟨0, [0x66, 0x2e, 0x6e], false⟩, ⟨1, [0x66, 0x5f, 0x6e], false⟩], [], [],
      by simp, by simp⟩)
  have hpair := (List.pairwise_cons.mp hconfusable.globals).1 _ (List.mem_singleton_self _)
  exact hpair (.cons (by decide) (.cons (by decide) (.cons (by decide) .nil)))

end Llxvm.Backend
