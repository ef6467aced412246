import Mathlib
import Llxvm.Lib.Separator
import Llxvm.Runtime.Pack

/-!
# Function pointers

`llxvm.runtime.Function` and the parts of `llxvm.util.ReflectionUtils` that it uses.  A class
is registered when one of its methods is asked for; every static method that it declares then
gets a byte of the data segment, and two maps lead from qualified signatures to these
addresses and from the addresses to the methods.
-/

namespace Llxvm.Runtime

open Align

/-! ## Reflection -/

/-- The types of parameters and results. -/
inductive JavaType where
  | void
  | prim (t : PrimType)
  | char
  | array (elem : JavaType)
  | object (name : String)
  deriving DecidableEq

/-- `String.replace(char, char)`. -/
def replace (s : String) (oldChar newChar : Char) : String :=
  String.ofList (s.toList.map fun c => if c = oldChar then newChar else c)

def getDescriptor : JavaType → String
  | .void => "V"
  | .prim .boolean => "Z"
  | .prim .byte => "B"
  | .char => "C"
  | .prim .short => "S"
  | .prim .int => "I"
  | .prim .long => "J"
  | .prim .float => "F"
  | .prim .double => "D"
  | .array elem => "[" ++ getDescriptor elem
  | .object name => "L" ++ replace name '.' '/' ++ ";"

/-- A declared method.  The classes have binary names, with dots, and the name of a method is
an identifier. -/
structure Method where
  declaringClass : String
  name : String
  parameterTypes : List JavaType
  returnType : JavaType
  isStatic : Bool
  no_slash : '/' ∉ name.toList
  no_paren : '(' ∉ name.toList
  deriving DecidableEq

/-- `getSignature(Method)`. -/
def getSignature (method : Method) : String :=
  method.name ++ "(" ++ String.join (method.parameterTypes.map getDescriptor) ++ ")" ++
    getDescriptor method.returnType

def getQualifiedSignature (method : Method) : String :=
  replace method.declaringClass '.' '/' ++ "/" ++ getSignature method

/-- A loaded class.  The format of class files counts methods with 16 bits, and no two of them
have the same name and descriptor. -/
structure JavaClass where
  name : String
  declaredMethods : List Method
  declaring : ∀ method ∈ declaredMethods, method.declaringClass = name
  distinct : (declaredMethods.map getSignature).Nodup
  count : declaredMethods.length < 2 ^ 16

def getStaticMethods (cls : JavaClass) : List Method := cls.declaredMethods.filter (·.isStatic)

/-- The class loader: a class that it finds has the name that it was asked for. -/
structure ClassLoader where
  loadClass : String → Option JavaClass
  name_eq : ∀ name cls, loadClass name = some cls → cls.name = name

/-- `ReflectionUtils.getClass`. -/
def ClassLoader.getClass (loader : ClassLoader) (name : String) : Option JavaClass :=
  loader.loadClass (replace name '/' '.')

/-! ## The tables -/

inductive FunctionError where
  | classNotFound (classname : String)
  | illegalArgument (message : String)
  | memory (e : Throwable)
  deriving DecidableEq

/-- The static fields of class `Function`. -/
structure FunctionTable where
  registeredClasses : List String
  functionPointers : String → Option (BitVec 32)
  functionObjects : BitVec 32 → Option Method

structure Process where
  memory : Memory
  functions : FunctionTable

namespace Process

def initial : Process := ⟨Memory.initial, ⟨[], fun _ => none, fun _ => none⟩⟩

end Process

abbrev FunctionM := EStateM FunctionError Process

namespace Function

def liftMemory {α : Type} (x : MemM α) : FunctionM α := fun p =>
  match x p.memory with
  | .ok a m => .ok a { p with memory := m }
  | .error e m => .error (.memory e) { p with memory := m }

/-- `functionPointers.put` and `functionObjects.put`. -/
def put (t : FunctionTable) (addr : BitVec 32) (method : Method) : FunctionTable :=
  { t with
    functionPointers :=
      Function.update t.functionPointers (getQualifiedSignature method) (some addr)
    functionObjects := Function.update t.functionObjects addr (some method) }

/-- The loop of `registerClass`. -/
def registerMethods : List Method → FunctionM Unit
  | [] => pure ()
  | method :: methods => do
      let addr ← liftMemory (Memory.allocateData 1#32)
      modify fun p => { p with functions := put p.functions addr method }
      registerMethods methods

def registerClass (loader : ClassLoader) (classname : String) : FunctionM Unit := do
  if classname ∈ (← get).functions.registeredClasses then return
  match loader.getClass classname with
  | none => throw (.classNotFound classname)
  | some cls =>
      registerMethods (getStaticMethods cls)
      modify fun p => { p with functions := { p.functions with
        registeredClasses := classname :: p.functions.registeredClasses } }

def getFunctionPointer (loader : ClassLoader) (classname methodSignature : String) :
    FunctionM (BitVec 32) := do
  registerClass loader classname
  let sig := classname ++ "/" ++ methodSignature
  match (← get).functions.functionPointers sig with
  | none => throw (.illegalArgument ("Unable to get function pointer for " ++ sig))
  | some addr => return addr

/-- `Memory.unpack(int, Class[])`, with the types that it refuses. -/
def unpackParams (addr : BitVec 32) : List JavaType → FunctionM (List Prim)
  | [] => pure []
  | .prim t :: types => do
      let addr := Memory.alignOffsetUp addr (sizeOf t)
      let value ← liftMemory (Memory.load addr t)
      return value :: (← unpackParams (addr + sizeOf t) types)
  | .char :: _ => throw (.illegalArgument "Unrecognised type")
  | _ :: _ => throw (.illegalArgument "Cannot request size of non-primitive type")

/-- `invoke`, up to the call of the method: the method and its parameters. -/
def invoke (f args : BitVec 32) : FunctionM (Method × List Prim) := do
  match (← get).functions.functionObjects f with
  | none => throw (.illegalArgument ("Invalid function pointer: " ++ toString f.toInt))
  | some method => return (method, ← unpackParams args method.parameterTypes)

/-! ## Runs -/

/-- The calls that use the data segment. -/
inductive Call where
  | getFunctionPointer (classname methodSignature : String)
  | allocateData (size : BitVec 32)

/-- The name of a class in the form with slashes. -/
structure IsClassName (s : String) : Prop where
  no_dot : '.' ∉ s.toList
  no_paren : '(' ∉ s.toList

/-- A method name and a descriptor. -/
def IsSignature (s : String) : Prop :=
  ∃ name desc : String, s = name ++ "(" ++ desc ∧ '/' ∉ name.toList ∧ '(' ∉ name.toList

namespace Call

def exec (loader : ClassLoader) : Call → FunctionM (BitVec 32)
  | .getFunctionPointer classname methodSignature =>
      Function.getFunctionPointer loader classname methodSignature
  | .allocateData size => liftMemory (Memory.allocateData size)

def Legal : Call → Prop
  | .getFunctionPointer classname methodSignature =>
      IsClassName classname ∧ IsSignature methodSignature
  | .allocateData size => 1 ≤ size.toInt

end Call

/-- The function pointers that were returned, with the class and the signature, and the
addresses of the other data. -/
structure Given where
  pointers : List (String × String × BitVec 32)
  data : List (BitVec 32)

def Given.next (g : Given) (addr : BitVec 32) : Call → Given
  | .getFunctionPointer classname methodSignature =>
      { g with pointers := (classname, methodSignature, addr) :: g.pointers }
  | .allocateData _ => { g with data := addr :: g.data }

/-- The states of runs in which the data segment stays below `2 ^ 31`.  A call may also
throw. -/
inductive Run (loader : ClassLoader) : Process → Given → Prop where
  | initial : Run loader Process.initial ⟨[], []⟩
  | returned {p p' : Process} {g : Given} {call : Call} {addr : BitVec 32} (h : Run loader p g)
      (hlegal : call.Legal) (hexec : call.exec loader p = .ok addr p')
      (hend : p'.memory.dataEnd.toNat < 2 ^ 31) : Run loader p' (g.next addr call)
  | thrown {p p' : Process} {g : Given} {call : Call} {e : FunctionError} (h : Run loader p g)
      (hlegal : call.Legal) (hexec : call.exec loader p = .error e p')
      (hend : p'.memory.dataEnd.toNat < 2 ^ 31) : Run loader p' g

/-! ## Qualified signatures -/

theorem toList_replace (s : String) (a b : Char) :
    (replace s a b).toList = s.toList.map fun c => if c = a then b else c := by
  simp [replace]

/-- Class names survive the change to dots and back. -/
theorem replace_replace {s : String} (h : '.' ∉ s.toList) :
    replace (replace s '/' '.') '.' '/' = s := by
  rw [← String.toList_inj, toList_replace, toList_replace, List.map_map]
  conv_rhs => rw [← List.map_id s.toList]
  apply List.map_congr_left
  intro c hc
  have hne : c ≠ '.' := fun heq => h (heq ▸ hc)
  by_cases hslash : c = '/'
  · simp [hslash]
  · simp [hslash, hne]

theorem isSignature_getSignature (method : Method) : IsSignature (getSignature method) :=
  ⟨method.name, String.join (method.parameterTypes.map getDescriptor) ++
    (")" ++ getDescriptor method.returnType), by simp only [getSignature, String.append_assoc],
    method.no_slash, method.no_paren⟩

/-- The class and the signature can be read off a qualified signature. -/
theorem qualified_injective {c c' s s' : String} (hc : IsClassName c) (hc' : IsClassName c')
    (hs : IsSignature s) (hs' : IsSignature s') (h : c ++ "/" ++ s = c' ++ "/" ++ s') :
    c = c' ∧ s = s' := by
  obtain ⟨n, d, rfl, hslash, hparen⟩ := hs
  obtain ⟨n', d', rfl, hslash', hparen'⟩ := hs'
  -- the first parenthesis ends the name of the method, and the last slash before it begins it
  have hparens : (c.toList ++ '/' :: n.toList) ++ '(' :: d.toList =
      (c'.toList ++ '/' :: n'.toList) ++ '(' :: d'.toList := by
    simpa [String.toList_append] using congrArg String.toList h
  obtain ⟨hslashes, hd⟩ := Separator.first_inj (by simp [hc.no_paren, hparen])
    (by simp [hc'.no_paren, hparen']) hparens
  obtain ⟨hcc, hn⟩ := Separator.last_inj hslash hslash' hslashes
  obtain rfl := String.toList_inj.mp hcc
  obtain rfl := String.toList_inj.mp hn
  obtain rfl := String.toList_inj.mp hd
  exact ⟨rfl, rfl⟩

/-- A descriptor begins with a letter of its own for each primitive type. -/
def descriptorHead : JavaType → Char
  | .void => 'V'
  | .prim .boolean => 'Z'
  | .prim .byte => 'B'
  | .char => 'C'
  | .prim .short => 'S'
  | .prim .int => 'I'
  | .prim .long => 'J'
  | .prim .float => 'F'
  | .prim .double => 'D'
  | .array _ => '['
  | .object _ => 'L'

theorem getDescriptor_head (type : JavaType) :
    ∃ rest, (getDescriptor type).toList = descriptorHead type :: rest := by
  cases type with
  | void => exact ⟨[], rfl⟩
  | prim t => cases t <;> exact ⟨[], rfl⟩
  | char => exact ⟨[], rfl⟩
  | array elem => exact ⟨(getDescriptor elem).toList, by simp [getDescriptor, descriptorHead]⟩
  | object name =>
      exact ⟨(replace name '.' '/').toList ++ [';'], by simp [getDescriptor, descriptorHead]⟩

theorem toList_getDescriptor_prim (t : PrimType) :
    (getDescriptor (.prim t)).toList = [descriptorHead (.prim t)] := by cases t <;> rfl

theorem eq_prim_of_head {type : JavaType} {t : PrimType}
    (h : descriptorHead type = descriptorHead (.prim t)) : type = .prim t := by
  cases type with
  | void => cases t <;> cases h
  | prim u => cases u <;> cases t <;> first | rfl | cases h
  | char => cases t <;> cases h
  | array elem => cases t <;> cases h
  | object name => cases t <;> cases h

theorem head_ne_paren (type : JavaType) : descriptorHead type ≠ ')' := by
  cases type with
  | prim t => cases t <;> decide
  | _ => simp [descriptorHead]

/-- The list of parameter types can be read off a descriptor with primitive parameters. -/
theorem parameterTypes_eq {types : List JavaType} {ts : List PrimType} {r r' : List Char}
    (h : (types.map fun t => (getDescriptor t).toList).flatten ++ ')' :: r =
      (ts.map fun t => descriptorHead (.prim t)) ++ ')' :: r') : types = ts.map .prim := by
  induction types generalizing ts with
  | nil =>
      cases ts with
      | nil => rfl
      | cons t ts => exact (head_ne_paren (.prim t) (List.cons.inj h).1.symm).elim
  | cons type types ih =>
      obtain ⟨rest, hrest⟩ := getDescriptor_head type
      simp only [List.map_cons, List.flatten_cons, hrest, List.cons_append] at h
      cases ts with
      | nil => exact (head_ne_paren type (List.cons.inj h).1).elim
      | cons t ts =>
          obtain ⟨hhead, htail⟩ := List.cons.inj h
          obtain rfl := eq_prim_of_head hhead
          have hnil : rest = [] := by
            rw [toList_getDescriptor_prim] at hrest
            exact (List.cons.inj hrest).2.symm
          rw [hnil, List.nil_append] at htail
          rw [List.map_cons, ih htail]

/-- The bindings of one table are in another one. -/
structure Keeps (t t' : FunctionTable) : Prop where
  pointers : ∀ sig addr, t.functionPointers sig = some addr → t'.functionPointers sig = some addr
  objects : ∀ addr method, t.functionObjects addr = some method →
    t'.functionObjects addr = some method

theorem Keeps.refl (t : FunctionTable) : Keeps t t := ⟨fun _ _ h => h, fun _ _ h => h⟩

theorem Keeps.trans {t t' t'' : FunctionTable} (h : Keeps t t') (h' : Keeps t' t'') : Keeps t t'' :=
  ⟨fun sig addr hsig => h'.pointers sig addr (h.pointers sig addr hsig),
    fun addr method haddr => h'.objects addr method (h.objects addr method haddr)⟩

/-- A method of one of the given classes. -/
def DeclaredBy (loader : ClassLoader) (classes : List String) (method : Method) : Prop :=
  ∃ classname ∈ classes, ∃ cls, loader.getClass classname = some cls ∧
    method ∈ getStaticMethods cls

/-- The two maps are inverse to each other, and their addresses are blocks of the data segment
that are not among the given ones. -/
structure TableInv (loader : ClassLoader) (classes : List String) (data : List (BitVec 32))
    (p : Process) : Prop where
  aligned : 8 ∣ p.memory.dataEnd.toNat
  start : 8 ≤ p.memory.dataEnd.toNat
  data_below : ∀ a ∈ data, a.toNat < p.memory.dataEnd.toNat
  pointer : ∀ sig addr, p.functions.functionPointers sig = some addr →
    ∃ method, p.functions.functionObjects addr = some method ∧ getQualifiedSignature method = sig
  object : ∀ addr method, p.functions.functionObjects addr = some method →
    p.functions.functionPointers (getQualifiedSignature method) = some addr ∧
      DeclaredBy loader classes method ∧ 8 ≤ addr.toNat ∧
      addr.toNat < p.memory.dataEnd.toNat ∧ addr ∉ data

theorem toNat_allocated {d n : BitVec 32} (hd : 8 ∣ d.toNat) (h : d.toNat + n.toNat + 8 ≤ 2 ^ 32) :
    (Memory.alignOffsetUp (d + n) alignment).toNat = d.toNat + alignUp n.toNat 8 := by
  have hsum : (d + n).toNat = d.toNat + n.toNat := by
    rw [BitVec.toNat_add]
    omega
  rw [← alignUp_add_left n.toNat hd, ← hsum]
  exact toNat_alignUp_mask (by decide : 3 < 32) (d + n) (by rw [hsum]; omega)

section inv

variable {loader : ClassLoader} {classes : List String} {data : List (BitVec 32)} {p : Process}

theorem TableInv.put (h : TableInv loader classes data p) {method : Method}
    (hend : p.memory.dataEnd.toNat + 9 ≤ 2 ^ 32)
    (hfresh : p.functions.functionPointers (getQualifiedSignature method) = none)
    (hmethod : DeclaredBy loader classes method) :
    TableInv loader classes data
        ⟨{ p.memory with dataEnd := Memory.alignOffsetUp (p.memory.dataEnd + 1#32) alignment },
          Function.put p.functions p.memory.dataEnd method⟩ ∧
      Keeps p.functions (Function.put p.functions p.memory.dataEnd method) ∧
      (Memory.alignOffsetUp (p.memory.dataEnd + 1#32) alignment).toNat =
        p.memory.dataEnd.toNat + 8 := by
  have hnext : (Memory.alignOffsetUp (p.memory.dataEnd + 1#32) alignment).toNat =
      p.memory.dataEnd.toNat + 8 := toNat_allocated (n := 1#32) h.aligned hend
  have hunused : p.functions.functionObjects p.memory.dataEnd = none := by
    by_contra hsome
    obtain ⟨other, hother⟩ := Option.ne_none_iff_exists'.mp hsome
    exact (h.object _ _ hother).2.2.2.1.false
  have haddr : ∀ addr other, p.functions.functionObjects addr = some other →
      addr ≠ p.memory.dataEnd := by
    rintro addr other hother rfl
    rw [hunused] at hother
    cases hother
  have hsig : ∀ sig addr, p.functions.functionPointers sig = some addr →
      sig ≠ getQualifiedSignature method := by
    rintro sig addr hsome rfl
    rw [hfresh] at hsome
    cases hsome
  refine ⟨⟨?_, ?_, ?_, ?_, ?_⟩, ⟨?_, ?_⟩, hnext⟩
  · have := h.aligned
    simp only [hnext]
    omega
  · simp only [hnext]
    omega
  · intro a ha
    have := h.data_below a ha
    simp only [hnext]
    omega
  · intro sig addr hsome
    by_cases heq : sig = getQualifiedSignature method
    · subst heq
      simp only [Function.put, Function.update_self, Option.some.injEq] at hsome
      exact ⟨method, by simp [Function.put, ← hsome], rfl⟩
    · simp only [Function.put, Function.update_of_ne heq] at hsome
      obtain ⟨other, hother, hqual⟩ := h.pointer sig addr hsome
      exact ⟨other, by simpa [Function.put, Function.update_of_ne (haddr _ _ hother)] using hother,
        hqual⟩
  · intro addr other hother
    by_cases heq : addr = p.memory.dataEnd
    · subst heq
      simp only [Function.put, Function.update_self, Option.some.injEq] at hother
      subst hother
      refine ⟨by simp [Function.put], hmethod, h.start, by simp only [hnext]; omega, fun hmem => ?_⟩
      exact (h.data_below _ hmem).false
    · simp only [Function.put, Function.update_of_ne heq] at hother
      obtain ⟨hpointer, hdecl, hlo, hhi, hdata⟩ := h.object addr other hother
      refine ⟨?_, hdecl, hlo, by simp only [hnext]; omega, hdata⟩
      simpa [Function.put, Function.update_of_ne (hsig _ _ hpointer)] using hpointer
  · intro sig addr hsome
    simpa [Function.put, Function.update_of_ne (hsig _ _ hsome)] using hsome
  · intro addr other hother
    simpa [Function.put, Function.update_of_ne (haddr _ _ hother)] using hother

theorem TableInv.registerMethods (h : TableInv loader classes data p) {methods : List Method}
    (hend : p.memory.dataEnd.toNat + 8 * methods.length + 8 ≤ 2 ^ 32)
    (hfresh : ∀ method ∈ methods,
      p.functions.functionPointers (getQualifiedSignature method) = none)
    (hdistinct : (methods.map getQualifiedSignature).Nodup)
    (hdecl : ∀ method ∈ methods, DeclaredBy loader classes method) :
    ∃ p', Function.registerMethods methods p = .ok () p' ∧ TableInv loader classes data p' ∧
      Keeps p.functions p'.functions ∧
      p'.functions.registeredClasses = p.functions.registeredClasses := by
  induction methods generalizing p with
  | nil => exact ⟨p, rfl, h, .refl _, rfl⟩
  | cons method methods ih =>
      obtain ⟨hnotin, hdistinct⟩ := List.nodup_cons.mp hdistinct
      rw [List.length_cons] at hend
      obtain ⟨hput, hkeep, hnext⟩ := h.put (by omega) (hfresh method List.mem_cons_self)
        (hdecl method List.mem_cons_self)
      obtain ⟨p', hrun, hinv, hkeep', hclasses⟩ := ih hput (by simp only [hnext]; omega) (by
          intro other hother
          have hne : getQualifiedSignature other ≠ getQualifiedSignature method := fun heq =>
            hnotin (heq ▸ List.mem_map_of_mem hother)
          simpa [Function.put, Function.update_of_ne hne] using
            hfresh other (List.mem_cons_of_mem _ hother))
        hdistinct fun other hother => hdecl other (List.mem_cons_of_mem _ hother)
      exact ⟨p', hrun, hinv, hkeep.trans hkeep', hclasses⟩

theorem getQualifiedSignature_eq {classname : String} (hname : IsClassName classname)
    {cls : JavaClass} (hcls : loader.getClass classname = some cls) {method : Method}
    (hmem : method ∈ getStaticMethods cls) :
    getQualifiedSignature method = classname ++ "/" ++ getSignature method := by
  have hdecl : method.declaringClass = replace classname '/' '.' :=
    (cls.declaring method (List.mem_filter.mp hmem).1).trans (loader.name_eq _ _ hcls)
  rw [getQualifiedSignature, hdecl, replace_replace hname.no_dot]

/-- The static methods of a class that is not registered are not in the table. -/
theorem TableInv.fresh (h : TableInv loader classes data p)
    (hclasses : ∀ c ∈ classes, IsClassName c) {classname : String} (hname : IsClassName classname)
    (hnot : classname ∉ classes) (signature : String) (hsig : IsSignature signature) :
    p.functions.functionPointers (classname ++ "/" ++ signature) = none := by
  by_contra hsome
  obtain ⟨addr, haddr⟩ := Option.ne_none_iff_exists'.mp hsome
  obtain ⟨method, hmethod, hqual⟩ := h.pointer _ addr haddr
  obtain ⟨-, ⟨c, hmem, cls, hcls, hstatic⟩, -⟩ := h.object addr method hmethod
  rw [getQualifiedSignature_eq (hclasses c hmem) hcls hstatic] at hqual
  obtain ⟨rfl, -⟩ := qualified_injective (hclasses c hmem) hname
    (isSignature_getSignature method) hsig hqual
  exact hnot hmem

theorem TableInv.mono {classes' : List String} (h : TableInv loader classes data p)
    (hsub : ∀ c ∈ classes, c ∈ classes') : TableInv loader classes' data p where
  aligned := h.aligned
  start := h.start
  data_below := h.data_below
  pointer := h.pointer
  object := by
    intro addr method hmethod
    obtain ⟨hpointer, ⟨c, hmem, hcls⟩, hrest⟩ := h.object addr method hmethod
    exact ⟨hpointer, ⟨c, hsub c hmem, hcls⟩, hrest⟩

/-- What holds between two calls. -/
structure FunctionInv (loader : ClassLoader) (p : Process) (g : Given) : Prop where
  table : TableInv loader p.functions.registeredClasses g.data p
  classes : ∀ c ∈ p.functions.registeredClasses, IsClassName c
  below : p.memory.dataEnd.toNat < 2 ^ 31
  given : ∀ x ∈ g.pointers, IsClassName x.1 ∧ IsSignature x.2.1 ∧
    p.functions.functionPointers (x.1 ++ "/" ++ x.2.1) = some x.2.2

/-- The registration keeps the bindings, or does nothing because there is no such class. -/
theorem TableInv.registerClass (h : TableInv loader p.functions.registeredClasses data p)
    (hclasses : ∀ c ∈ p.functions.registeredClasses, IsClassName c)
    (hbelow : p.memory.dataEnd.toNat < 2 ^ 31) {classname : String}
    (hname : IsClassName classname) :
    Function.registerClass loader classname p = .error (.classNotFound classname) p ∨
      ∃ p', Function.registerClass loader classname p = .ok () p' ∧
        TableInv loader p'.functions.registeredClasses data p' ∧
        (∀ c ∈ p'.functions.registeredClasses, IsClassName c) ∧ Keeps p.functions p'.functions := by
  by_cases hreg : classname ∈ p.functions.registeredClasses
  · refine .inr ⟨p, ?_, h, hclasses, .refl _⟩
    simp only [Function.registerClass, bind, EStateM.bind, get, getThe, MonadStateOf.get,
      EStateM.get, if_pos hreg]
    rfl
  · cases hcls : loader.getClass classname with
    | none =>
        left
        simp only [Function.registerClass, bind, EStateM.bind, get, getThe, MonadStateOf.get,
          EStateM.get, if_neg hreg, hcls]
        rfl
    | some cls =>
        have hfresh : ∀ method ∈ getStaticMethods cls,
            p.functions.functionPointers (getQualifiedSignature method) = none := by
          intro method hmem
          rw [getQualifiedSignature_eq hname hcls hmem]
          exact h.fresh hclasses hname hreg _ (isSignature_getSignature method)
        have hdistinct : ((getStaticMethods cls).map getQualifiedSignature).Nodup := by
          have hsigs : ((getStaticMethods cls).map getSignature).Nodup :=
            cls.distinct.sublist (List.Sublist.map _ List.filter_sublist)
          refine hsigs.of_map.map_on fun method hmem other hother heq => ?_
          apply List.inj_on_of_nodup_map hsigs hmem hother
          rw [getQualifiedSignature_eq hname hcls hmem,
            getQualifiedSignature_eq hname hcls hother] at heq
          exact (qualified_injective hname hname (isSignature_getSignature _)
            (isSignature_getSignature _) heq).2
        have hlen : (getStaticMethods cls).length < 2 ^ 16 :=
          (List.length_filter_le _ _).trans_lt cls.count
        have hdeclared : ∀ method ∈ getStaticMethods cls,
            DeclaredBy loader (classname :: p.functions.registeredClasses) method :=
          fun method hmem => ⟨classname, List.mem_cons_self, cls, hcls, hmem⟩
        obtain ⟨p', hrun, hinv, hkeep, hsame⟩ :=
          (h.mono fun c hc => List.mem_cons_of_mem classname hc).registerMethods (by omega) hfresh
            hdistinct hdeclared
        refine .inr ⟨{ p' with functions := { p'.functions with
          registeredClasses := classname :: p'.functions.registeredClasses } }, ?_, ?_, ?_, ?_⟩
        · simp only [Function.registerClass, bind, EStateM.bind, get, getThe, MonadStateOf.get,
            EStateM.get, if_neg hreg, hcls, hrun]
          rfl
        · rw [← hsame] at hinv
          exact ⟨hinv.aligned, hinv.start, hinv.data_below, hinv.pointer, hinv.object⟩
        · intro c hc
          rcases List.mem_cons.mp hc with rfl | hc
          · exact hname
          · exact hclasses c (hsame ▸ hc)
        · exact ⟨hkeep.pointers, hkeep.objects⟩

theorem TableInv.getFunctionPointer (h : TableInv loader p.functions.registeredClasses data p)
    (hclasses : ∀ c ∈ p.functions.registeredClasses, IsClassName c)
    (hbelow : p.memory.dataEnd.toNat < 2 ^ 31) {classname : String}
    (hname : IsClassName classname) (signature : String) :
    ∃ p', (TableInv loader p'.functions.registeredClasses data p' ∧
        (∀ c ∈ p'.functions.registeredClasses, IsClassName c) ∧ Keeps p.functions p'.functions) ∧
      ((∃ e, Function.getFunctionPointer loader classname signature p = .error e p') ∨
        ∃ addr, Function.getFunctionPointer loader classname signature p = .ok addr p' ∧
          p'.functions.functionPointers (classname ++ "/" ++ signature) = some addr) := by
  rcases h.registerClass hclasses hbelow hname with hrun | ⟨p', hrun, hinv⟩
  · refine ⟨p, ⟨h, hclasses, .refl _⟩, .inl ⟨.classNotFound classname, ?_⟩⟩
    simp only [Function.getFunctionPointer, bind, EStateM.bind, hrun]
  · refine ⟨p', hinv, ?_⟩
    cases hsig : p'.functions.functionPointers (classname ++ "/" ++ signature) with
    | none =>
        left
        refine ⟨.illegalArgument
          ("Unable to get function pointer for " ++ (classname ++ "/" ++ signature)), ?_⟩
        simp only [Function.getFunctionPointer, bind, EStateM.bind, hrun, get, getThe,
          MonadStateOf.get, EStateM.get, hsig]
        rfl
    | some addr =>
        right
        refine ⟨addr, ?_, rfl⟩
        simp only [Function.getFunctionPointer, bind, EStateM.bind, hrun, get, getThe,
          MonadStateOf.get, EStateM.get, hsig]
        rfl

end inv

/-! ## Runs -/

section run

variable {loader : ClassLoader} {p p' : Process} {g : Given} {call : Call}

theorem functionInv_initial : FunctionInv loader Process.initial ⟨[], []⟩ where
  table :=
    { aligned := by decide
      start := by decide
      data_below := by simp
      pointer := fun _ _ h => by cases h
      object := fun _ _ h => by cases h }
  classes := by simp [Process.initial]
  below := by decide
  given := by simp

theorem FunctionInv.keeps_given (h : FunctionInv loader p g)
    (hkeep : Keeps p.functions p'.functions) : ∀ x ∈ g.pointers,
      IsClassName x.1 ∧ IsSignature x.2.1 ∧
        p'.functions.functionPointers (x.1 ++ "/" ++ x.2.1) = some x.2.2 := by
  intro x hx
  obtain ⟨hname, hsig, hsome⟩ := h.given x hx
  exact ⟨hname, hsig, hkeep.pointers _ _ hsome⟩

/-- A block of the data segment is above all that is in use. -/
theorem FunctionInv.allocateData (h : FunctionInv loader p g) {n : BitVec 32}
    (hn : 1 ≤ n.toInt) {addr : BitVec 32}
    (hexec : liftMemory (Memory.allocateData n) p = .ok addr p')
    (hend : p'.memory.dataEnd.toNat < 2 ^ 31) :
    FunctionInv loader p' { g with data := addr :: g.data } ∧ Keeps p.functions p'.functions := by
  cases hexec
  have hlt : n.toNat < 2 ^ 31 := by
    have := BitVec.toInt_eq_toNat_cond n
    have := n.isLt
    split_ifs at * <;> omega
  have hpos : 0 < n.toNat := by
    have := BitVec.toInt_eq_toNat_cond n
    split_ifs at * <;> omega
  have hbelow := h.below
  have haligned := h.table.aligned
  have hnext := toNat_allocated haligned (n := n) (by omega)
  have hup := le_alignUp n.toNat 8
  have hup8 := dvd_alignUp n.toNat (by decide : 0 < 8)
  refine ⟨⟨⟨?_, ?_, ?_, h.table.pointer, ?_⟩, h.classes, hend, h.given⟩, .refl _⟩
  · simp only [hnext]
    omega
  · have := h.table.start
    simp only [hnext]
    omega
  · intro a ha
    simp only [hnext]
    rcases List.mem_cons.mp ha with rfl | ha
    · omega
    · have := h.table.data_below a ha
      omega
  · intro addr method hmethod
    obtain ⟨hpointer, hdecl, hlo, hhi, hdata⟩ := h.table.object addr method hmethod
    refine ⟨hpointer, hdecl, hlo, by simp only [hnext]; omega, fun hmem => ?_⟩
    rcases List.mem_cons.mp hmem with rfl | hmem
    · exact hhi.false
    · exact hdata hmem

theorem FunctionInv.step (h : FunctionInv loader p g) (hlegal : call.Legal) :
    (∀ addr, call.exec loader p = .ok addr p' → p'.memory.dataEnd.toNat < 2 ^ 31 →
        FunctionInv loader p' (g.next addr call) ∧ Keeps p.functions p'.functions) ∧
      ∀ e, call.exec loader p = .error e p' → p'.memory.dataEnd.toNat < 2 ^ 31 →
        FunctionInv loader p' g ∧ Keeps p.functions p'.functions := by
  cases call with
  | getFunctionPointer classname signature =>
      obtain ⟨q, ⟨htable, hclasses, hkeep⟩, hcases⟩ :=
        h.table.getFunctionPointer h.classes h.below hlegal.1 signature
      have hgiven := h.keeps_given hkeep
      constructor
      · intro addr hexec hend
        rcases hcases with ⟨e, hrun⟩ | ⟨addr', hrun, hsome⟩
        · cases hrun.symm.trans hexec
        · cases hrun.symm.trans hexec
          refine ⟨⟨htable, hclasses, hend, fun x hx => ?_⟩, hkeep⟩
          rcases List.mem_cons.mp hx with rfl | hx
          · exact ⟨hlegal.1, hlegal.2, hsome⟩
          · exact hgiven x hx
      · intro e hexec hend
        rcases hcases with ⟨e', hrun⟩ | ⟨addr', hrun, -⟩
        · cases hrun.symm.trans hexec
          exact ⟨⟨htable, hclasses, hend, hgiven⟩, hkeep⟩
        · cases hrun.symm.trans hexec
  | allocateData n =>
      constructor
      · intro addr hexec hend
        exact h.allocateData hlegal hexec hend
      · intro e hexec
        cases hexec

theorem Run.inv (h : Run loader p g) : FunctionInv loader p g := by
  induction h with
  | initial => exact functionInv_initial
  | returned h hlegal hexec hend ih => exact ((ih.step hlegal).1 _ hexec hend).1
  | thrown h hlegal hexec hend ih => exact ((ih.step hlegal).2 _ hexec hend).1

end run

/-- The method that a class declares with a signature. -/
def Declares (loader : ClassLoader) (classname signature : String) (method : Method) : Prop :=
  ∃ cls, loader.getClass classname = some cls ∧ method ∈ getStaticMethods cls ∧
    getSignature method = signature

theorem Declares.unique {loader : ClassLoader} {classname signature : String}
    {method method' : Method} (h : Declares loader classname signature method)
    (h' : Declares loader classname signature method') : method = method' := by
  obtain ⟨cls, hcls, hmem, hsig⟩ := h
  obtain ⟨cls', hcls', hmem', hsig'⟩ := h'
  cases hcls.symm.trans hcls'
  exact List.inj_on_of_nodup_map cls.distinct (List.mem_filter.mp hmem).1
    (List.mem_filter.mp hmem').1
    (hsig.trans hsig'.symm)

/-- A pointer that was returned leads to the method that was asked for. -/
theorem FunctionInv.object_of_given {loader : ClassLoader} {p : Process} {g : Given}
    (h : FunctionInv loader p g) {x : String × String × BitVec 32} (hx : x ∈ g.pointers) :
    ∃ method, p.functions.functionObjects x.2.2 = some method ∧
      Declares loader x.1 x.2.1 method := by
  obtain ⟨hname, hsig, hsome⟩ := h.given x hx
  obtain ⟨method, hobject, hqual⟩ := h.table.pointer _ _ hsome
  obtain ⟨-, ⟨c, hmem, cls, hcls, hstatic⟩, -⟩ := h.table.object _ _ hobject
  rw [getQualifiedSignature_eq (h.classes c hmem) hcls hstatic] at hqual
  obtain ⟨rfl, hsignature⟩ := qualified_injective (h.classes c hmem) hname
    (isSignature_getSignature method) hsig hqual
  exact ⟨method, hobject, cls, hcls, hstatic, hsignature⟩

/-- Function pointers identify functions: they are equal for equal methods only, differ from
the null pointer and from all other data, lead back to their methods, and stay as they are. -/
theorem run_identifies (loader : ClassLoader) (p : Process) (g : Given) (h : Run loader p g) :
    (∀ x ∈ g.pointers, ∀ y ∈ g.pointers, x.2.2 = y.2.2 ↔ x.1 = y.1 ∧ x.2.1 = y.2.1) ∧
      (∀ x ∈ g.pointers, x.2.2 ≠ 0#32 ∧ x.2.2 ∉ g.data) ∧
      (∀ x ∈ g.pointers, ∃ method, Declares loader x.1 x.2.1 method ∧
        (∀ other, Declares loader x.1 x.2.1 other → other = method) ∧
        ∀ args, invoke x.2.2 args p =
          (do return (method, ← unpackParams args method.parameterTypes)) p) ∧
      ∀ (call : Call) (p' : Process), call.Legal → p'.memory.dataEnd.toNat < 2 ^ 31 →
        ((∃ addr, call.exec loader p = .ok addr p') ∨ ∃ e, call.exec loader p = .error e p') →
        Keeps p.functions p'.functions := by
  have hinv := h.inv
  refine ⟨?_, ?_, ?_, ?_⟩
  · intro x hx y hy
    obtain ⟨hnamex, hsigx, hsomex⟩ := hinv.given x hx
    obtain ⟨hnamey, hsigy, hsomey⟩ := hinv.given y hy
    constructor
    · intro heq
      obtain ⟨mx, hmx, hqx⟩ := hinv.table.pointer _ _ hsomex
      obtain ⟨my, hmy, hqy⟩ := hinv.table.pointer _ _ hsomey
      rw [heq, hmy] at hmx
      cases hmx
      exact qualified_injective hnamex hnamey hsigx hsigy (hqx.symm.trans hqy)
    · rintro ⟨hname, hsig⟩
      rw [hname, hsig, hsomey] at hsomex
      exact (Option.some.inj hsomex).symm
  · intro x hx
    obtain ⟨method, hobject, -⟩ := hinv.object_of_given hx
    obtain ⟨-, -, hlo, -, hdata⟩ := hinv.table.object _ _ hobject
    refine ⟨fun hnull => ?_, hdata⟩
    rw [hnull] at hlo
    exact absurd hlo (by decide)
  · intro x hx
    obtain ⟨method, hobject, hdecl⟩ := hinv.object_of_given hx
    refine ⟨method, hdecl, fun other hother => hother.unique hdecl, fun args => ?_⟩
    simp only [invoke, bind, EStateM.bind, get, getThe, MonadStateOf.get, EStateM.get, hobject]
  · intro call p' hlegal hend hexec
    rcases hexec with ⟨addr, hexec⟩ | ⟨e, hexec⟩
    · exact ((hinv.step hlegal).1 addr hexec hend).2
    · exact ((hinv.step hlegal).2 e hexec hend).2

/-- A loader of one class, which has one method. -/
def singleMethod (method : Method) : ClassLoader where
  loadClass name :=
    if name = method.declaringClass then
      some ⟨method.declaringClass, [method], by simp, by simp, by simp⟩
    else none
  name_eq := by
    intro name cls h
    split at h
    · next heq =>
        cases h
        exact heq.symm
    · cases h

def oneClass : ClassLoader :=
  singleMethod ⟨"A", "f", [.prim .int], .void, true, by decide, by decide⟩

/-- A pointer to the method and a block of the data segment. -/
theorem run_identifies_one_class :
    ∃ p g, Run oneClass p g ∧ g.pointers = [("A", "f(I)V", 8#32)] ∧ g.data = [16#32] ∧
      ∃ method, Declares oneClass "A" "f(I)V" method := by
  have hpointer : Run oneClass _ _ := .returned .initial
    (show Call.Legal (.getFunctionPointer "A" "f(I)V") from
      ⟨⟨by decide, by decide⟩, "f", "I)V", rfl, by decide, by decide⟩)
    (show _ = EStateM.Result.ok 8#32 _ from rfl) (by decide)
  have hdata : Run oneClass _ _ := .returned hpointer
    (show Call.Legal (.allocateData 4#32) from (by decide : 1 ≤ (4#32).toInt)) rfl (by decide)
  obtain ⟨-, -, hmethod, -⟩ := run_identifies oneClass _ _ hdata
  obtain ⟨method, hdecl, -⟩ := hmethod _ List.mem_cons_self
  exact ⟨_, _, hdata, rfl, rfl, method, hdecl⟩

end Function

end Llxvm.Runtime
