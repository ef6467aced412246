import Llxvm.Jlinker.CarriedLines

/-!
# Lines with external references

In a file of the writer the references to external members are qualified with classes that provide
them, or dropped and counted; the other lines behind the header are left as they are.
-/

namespace Llxvm.Jlinker

open TextLines

/-! ## Files of the writer -/

/-- The number of operands of the instructions that the linker looks for. -/
def operandCount (instruction : Line) : Option ℕ :=
  if instruction = Word.invokeStatic ∨ instruction = Word.classForMethod then some 1
  else if instruction = Word.getStatic then some 2
  else none

/-- The instruction has its operands, with one blank in front of each. -/
def WellSpaced (l : Line) : Prop :=
  ∀ n ∈ (directives l).head?.bind operandCount,
    operands l = directives l ∧ (directives l).length = n + 1

instance : DecidablePred WellSpaced := fun l =>
  inferInstanceAs (Decidable (∀ n ∈ (directives l).head?.bind operandCount,
    operands l = directives l ∧ (directives l).length = n + 1))

/-- A file as the writer prints it: the external members are declared in front of the methods, the
external methods with their signatures. -/
structure PreLink (text : Line) : Prop where
  last : remainder '\n' text = []
  declarations : ∀ l ∈ terminated '\n' text, ¬ malformedExtern (directives l)
  in_header : ∀ l ∈ bodyLines (terminated '\n' text), ¬ isExtern (directives l)
  prototyped : ∀ m ∈ (declared (terminated '\n' text)).methods, '(' ∈ m
  well_spaced : ∀ l ∈ bodyLines (terminated '\n' text), WellSpaced l

/-- The words are a reference to a declared member. -/
inductive Refers (ext : Externs) : List Line → Reference → Prop
  | invokeStatic {m : Line} (h : m ∈ ext.methods) :
      Refers ext [Word.invokeStatic, m] (.invokeStatic m)
  | getStatic {name type : Line} (h : name ++ " ".toList ++ type ∈ ext.fields) :
      Refers ext [Word.getStatic, name, type] (.getStatic (name ++ " ".toList ++ type))
  | classForMethod {m : Line} (h : m ∈ ext.methods) :
      Refers ext [Word.classForMethod, m] (.classForMethod m)

/-! ## Both ways to split a line -/

/-- The first word is what the piece in front of the first blank begins with. -/
theorem head?_directives (l : Line) :
    (directives l).head? = (operands l).head?.map fun w => w.takeWhile fun c => !isSpace c := by
  have hwords : (directives l).head? = ((trimCopy l).splitOnP isSpace).head? := by
    rw [directives, stringSplit]
    cases (trimCopy l).splitOnP isSpace with
    | nil => rfl
    | cons piece pieces => rfl
  have hblank : ∀ c, (!isSpace c ∧ !(c == ' ')) ↔ !isSpace c := by
    intro c
    refine and_iff_left_of_imp fun hc => ?_
    by_contra hnot
    obtain rfl : c = ' ' := by simpa using hnot
    cases hc
  rw [hwords, operands, stringSplit2, List.splitOn, head?_splitOnP, head?_splitOnP,
    Option.map_some, List.takeWhile_takeWhile]
  simp only [hblank, Bool.decide_eq_true]

theorem takeWhile_of_operandCount {w : Line} {n : ℕ} (h : operandCount w = some n) :
    (w.takeWhile fun c => !isSpace c) = w := by
  unfold operandCount at h
  split_ifs at h with h₁ h₂
  · rcases h₁ with rfl | rfl <;> rfl
  · subst h₂
    rfl

/-- On words that are as many as they should be the references are the same. -/
theorem reference_eq_some_iff_refers {ext : Externs} {ws : List Line} {r : Reference}
    (h : ∀ n, ws.head?.bind operandCount = some n → ws.length = n + 1) :
    reference ext ws = some r ↔ Refers ext ws r := by
  constructor
  · intro hr
    rcases ws with - | ⟨w, - | ⟨name, args⟩⟩
    · cases hr
    · cases hr
    · simp only [reference] at hr
      split_ifs at hr with h₁ h₂ h₃ h₄ h₅
      · subst h₁
        cases hr
        obtain rfl : args = [] := by simpa using h 1 rfl
        exact .invokeStatic h₂
      · subst h₃
        rcases args with - | ⟨type, args⟩
        · cases hr
        · simp only at hr
          split_ifs at hr with h₆
          cases hr
          obtain rfl : args = [] := by simpa using h 2 rfl
          exact .getStatic h₆
      · subst h₄
        cases hr
        obtain rfl : args = [] := by simpa using h 1 rfl
        exact .classForMethod h₅
  · intro hr
    have hne₁ := Word.invokeStatic_ne_getStatic
    have hne₂ := Word.invokeStatic_ne_classForMethod
    have hne₃ := Word.getStatic_ne_classForMethod
    cases hr with
    | invokeStatic hm => simp [reference, hm]
    | getStatic hf =>
        rw [reference, if_neg hne₁.symm, if_pos rfl]
        exact if_pos hf
    | classForMethod hm => simp [reference, hne₂.symm, hne₃.symm, hm]

theorem operandCount_isSome_of_reference {ext : Externs} {ws : List Line} {r : Reference}
    (h : reference ext ws = some r) : (ws.head?.bind operandCount).isSome := by
  rcases ws with - | ⟨w, - | ⟨name, args⟩⟩
  · cases h
  · cases h
  · simp only [reference] at h
    rw [List.head?_cons, Option.bind_some, operandCount]
    split_ifs at h with h₁ _ h₂ h₃
    · rw [if_pos (.inl h₁)]
      rfl
    · rw [if_neg (not_or.mpr ⟨h₁, h₂ ▸ Word.getStatic_ne_classForMethod⟩), if_pos h₂]
      rfl
    · rw [if_pos (.inr h₃)]
      rfl

theorem Refers.operandCount_isSome {ext : Externs} {ws : List Line} {r : Reference}
    (h : Refers ext ws r) : (ws.head?.bind operandCount).isSome := by
  cases h with
  | invokeStatic _ => rfl
  | getStatic _ => rfl
  | classForMethod _ => rfl

/-- In a line of the writer `linkStatic` finds just the references to declared members. -/
theorem reference_operands_iff {ext : Externs} {l : Line} (h : WellSpaced l) {r : Reference} :
    reference ext (operands l) = some r ↔ Refers ext (directives l) r := by
  by_cases hwords : ∃ n, (directives l).head?.bind operandCount = some n
  · obtain ⟨n, hn⟩ := hwords
    obtain ⟨heq, hlen⟩ := h n hn
    rw [heq]
    refine reference_eq_some_iff_refers fun n' hn' => ?_
    cases hn.symm.trans hn'
    exact hlen
  · refine iff_of_false (fun hr => hwords ?_) fun hr =>
      hwords (Option.isSome_iff_exists.mp hr.operandCount_isSome)
    -- an instruction that is found would be the first word of the line
    obtain ⟨n, hn⟩ := Option.isSome_iff_exists.mp (operandCount_isSome_of_reference hr)
    obtain ⟨w, hw, hcount⟩ := Option.bind_eq_some_iff.mp hn
    refine ⟨n, ?_⟩
    rw [head?_directives, hw, Option.map_some, takeWhile_of_operandCount hcount]
    exact hcount

/-! ## What comes out of the lines -/

/-- The line that a reference becomes. -/
def Reference.qualified (wideLdc : Bool) (className : String) : Reference → Line
  | invokeStatic m => "\tinvokestatic ".toList ++ className.toList ++ ("/".toList ++ m)
  | getStatic f => "\tgetstatic ".toList ++ className.toList ++ ("/".toList ++ f)
  | classForMethod _ => (if wideLdc then "\tldc2_w \"".toList else "\tldc \"".toList) ++
      className.toList ++ "\"".toList

/-- Which classes provide which methods and fields. -/
structure Providers where
  method : String → String → Prop
  field : String → String → Prop

/-- The class provides the member. -/
def Reference.ProvidedBy (ps : Providers) (className : String) : Reference → Prop
  | invokeStatic m => ps.method (String.ofList m) className
  | getStatic f => ps.field (String.ofList f) className
  | classForMethod m => ps.method (String.ofList m) className

/-- What comes out in the place of a line of the body; `none` if the line is dropped. -/
inductive Resolves (ps : Providers) (wideLdc : Bool) (ext : Externs) (l : Line) :
    Option Line → Prop
  | other (h : ∀ r, ¬ Refers ext (directives l) r) : Resolves ps wideLdc ext l (some l)
  | resolved {r : Reference} {className : String} (h : Refers ext (directives l) r)
      (hprovided : r.ProvidedBy ps className) :
      Resolves ps wideLdc ext l (some (r.qualified wideLdc className))
  | unresolved {r : Reference} (h : Refers ext (directives l) r)
      (hmissing : ∀ className, ¬ r.ProvidedBy ps className) : Resolves ps wideLdc ext l none

/-- The map has a class that provides the member for each member that is provided. -/
structure Finds (map : ClassMap) (provides : String → String → Prop) : Prop where
  sound : ∀ sig name, map.find sig = some name → provides sig name
  named : ∀ sig, map.find sig ≠ some ""
  complete : ∀ sig name, provides sig name → (map.find sig).isSome

section maps

variable {map : ClassMap} {provides : String → String → Prop} {sig before after : Line}

theorem Finds.qualify_some (h : Finds map provides) {t : Target}
    (ht : qualify (safeGet map sig) before after = some t) :
    ∃ name, provides (String.ofList sig) name ∧ t.line = before ++ name.toList ++ after := by
  unfold qualify safeGet at ht
  split_ifs at ht
  cases ht
  cases hfind : map.find (String.ofList sig) with
  | none => simp_all
  | some name => exact ⟨name, h.sound _ _ hfind, rfl⟩

theorem Finds.qualify_none (h : Finds map provides)
    (ht : qualify (safeGet map sig) before after = none) (name : String) :
    ¬ provides (String.ofList sig) name := by
  intro hprovides
  obtain ⟨found, hfound⟩ := Option.isSome_iff_exists.mp (h.complete _ _ hprovides)
  unfold qualify safeGet at ht
  rw [hfound] at ht
  split_ifs at ht with hempty
  exact h.named _ (hfound.trans (congrArg some (String.toList_eq_nil_iff.mp hempty)))

end maps

section resolve

variable {maps : LinkMaps} {ps : Providers} {r : Reference}

theorem resolve_some (hm : Finds maps.methodMap ps.method) (hf : Finds maps.fieldMap ps.field)
    (hproto : ∀ m, r = .invokeStatic m → '(' ∈ m) {t : Target} (ht : r.resolve maps = some t) :
    ∃ name, r.ProvidedBy ps name ∧ t.line = r.qualified maps.wideLdc name := by
  cases r with
  | invokeStatic m =>
      rw [Reference.resolve, prototype, if_pos (hproto m rfl)] at ht
      exact hm.qualify_some ht
  | getStatic f => exact hf.qualify_some ht
  | classForMethod m => exact hm.qualify_some ht

theorem resolve_none (hm : Finds maps.methodMap ps.method) (hf : Finds maps.fieldMap ps.field)
    (hproto : ∀ m, r = .invokeStatic m → '(' ∈ m) (ht : r.resolve maps = none) (name : String) :
    ¬ r.ProvidedBy ps name := by
  cases r with
  | invokeStatic m =>
      rw [Reference.resolve, prototype, if_pos (hproto m rfl)] at ht
      exact hm.qualify_none ht name
  | getStatic f => exact hf.qualify_none ht name
  | classForMethod m => exact hm.qualify_none ht name

/-- The external method of a reference has been declared with its signature. -/
theorem prototyped_of_refers {ext : Externs} (hext : ∀ m ∈ ext.methods, '(' ∈ m) {ws : List Line}
    (h : Refers ext ws r) : ∀ m, r = .invokeStatic m → '(' ∈ m := by
  rintro m rfl
  cases h with
  | invokeStatic hm => exact hext m hm

theorem resolves_bodyImage (hm : Finds maps.methodMap ps.method)
    (hf : Finds maps.fieldMap ps.field) {ext : Externs} (hext : ∀ m ∈ ext.methods, '(' ∈ m)
    {l : Line} (hl : WellSpaced l) : Resolves ps maps.wideLdc ext l (bodyImage maps ext l) := by
  unfold bodyImage
  cases hr : reference ext (operands l) with
  | none =>
      refine .other fun r hrefers => ?_
      rw [(reference_operands_iff hl).mpr hrefers] at hr
      cases hr
  | some r =>
      have hrefers := (reference_operands_iff hl).mp hr
      have hproto := prototyped_of_refers hext hrefers
      cases ht : r.resolve maps with
      | none =>
          simp only [ht, Option.map_none]
          exact .unresolved hrefers (resolve_none hm hf hproto ht)
      | some t =>
          obtain ⟨name, hprovided, hline⟩ := resolve_some hm hf hproto ht
          simp only [ht, Option.map_some, hline]
          exact .resolved hrefers hprovided

end resolve

section counted

variable {ps : Providers} {wideLdc : Bool} {ext : Externs}

theorem Refers.unique {ws : List Line} {r r' : Reference} (h : Refers ext ws r)
    (h' : Refers ext ws r') : r = r' := by
  have hne := Word.invokeStatic_ne_classForMethod
  generalize hws : ws = ws' at h'
  cases h with
  | invokeStatic _ =>
      cases h' with
      | invokeStatic _ =>
          cases hws
          rfl
      | getStatic _ => simp at hws
      | classForMethod _ => exact absurd (List.cons.inj hws).1 hne
  | getStatic _ =>
      cases h' with
      | invokeStatic _ => simp at hws
      | getStatic _ =>
          cases hws
          rfl
      | classForMethod _ => simp at hws
  | classForMethod _ =>
      cases h' with
      | invokeStatic _ => exact absurd (List.cons.inj hws).1.symm hne
      | getStatic _ => simp at hws
      | classForMethod _ =>
          cases hws
          rfl

/-- A line is kept if its reference is provided. -/
theorem Resolves.isSome_iff {l : Line} {image : Option Line}
    (h : Resolves ps wideLdc ext l image) :
    image.isSome ↔ ∀ r, Refers ext (directives l) r → ∃ className, r.ProvidedBy ps className := by
  cases h with
  | other hnone => exact iff_of_true rfl fun r hr => absurd hr (hnone r)
  | @resolved r className hr hprovided =>
      refine iff_of_true rfl fun r' hr' => ⟨className, ?_⟩
      rw [hr'.unique hr]
      exact hprovided
  | @unresolved r hr hmissing =>
      refine iff_of_false Bool.false_ne_true fun hall => ?_
      obtain ⟨className, hprovided⟩ := hall r hr
      exact hmissing className hprovided

theorem countP_isNone_eq_zero_iff {ls : List Line} {images : List (Option Line)}
    (h : List.Forall₂ (Resolves ps wideLdc ext) ls images) :
    images.countP Option.isNone = 0 ↔
      ∀ l ∈ ls, ∀ r, Refers ext (directives l) r → ∃ className, r.ProvidedBy ps className := by
  induction h with
  | nil => simp
  | @cons l image ls images hl _ ih =>
      rw [List.forall_mem_cons, ← ih, ← hl.isSome_iff, List.countP_cons]
      cases image with
      | none => simp
      | some l' => simp

end counted

/-! ## Files -/

theorem not_malformedReference {l : Line} (h : WellSpaced l) :
    ¬ malformedReference (operands l) := by
  obtain ⟨w, args, hargs⟩ := List.exists_cons_of_ne_nil (List.splitOn_ne_nil ' ' (trimCopy l))
  have hhead : operands l = w :: args := hargs
  cases hw : operandCount w with
  | none =>
      unfold operandCount at hw
      split_ifs at hw with h₁ h₂
      rw [not_or] at h₁
      simp [hhead, malformedReference, h₁, h₂]
  | some n =>
      have hfirst : (directives l).head? = some w := by
        rw [head?_directives, hhead, List.head?_cons, Option.map_some, takeWhile_of_operandCount hw]
      obtain ⟨heq, hlen⟩ := h n (by rw [hfirst, Option.bind_some, hw]; rfl)
      rw [← heq, hhead, List.length_cons, Nat.add_right_cancel_iff] at hlen
      unfold operandCount at hw
      split_ifs at hw with h₁ h₂
      · obtain rfl : 1 = n := Option.some.inj hw
        have hget : w ≠ Word.getStatic := by
          rcases h₁ with rfl | rfl
          · exact Word.invokeStatic_ne_getStatic
          · exact Word.getStatic_ne_classForMethod.symm
        simp [hhead, malformedReference, hlen, hget]
      · obtain rfl : 2 = n := Option.some.inj hw
        simp [hhead, malformedReference, hlen]

/-- No declaration is in the body. -/
theorem PreLink.declared_eq {text : Line} (h : PreLink text) :
    declared (terminated '\n' text) = declared (headerLines (terminated '\n' text)) := by
  have hnone {α : Type} {f : List Line → Option α}
      (hf : ∀ args, ¬ isExtern args → f args = none) :
      (bodyLines (terminated '\n' text)).filterMap (fun l => f (directives l)) = [] := by
    rw [List.filterMap_eq_nil_iff]
    exact fun l hl => hf _ (h.in_header l hl)
  have hfield : ∀ args, ¬ isExtern args → declaredField args = none := by
    intro args hargs
    unfold declaredField
    split
    · exact if_neg fun hd => hargs (by simp [isExtern, hd.1])
    · rfl
  have hmethod : ∀ args, ¬ isExtern args → declaredMethod args = none := by
    intro args hargs
    unfold declaredMethod
    split
    · exact if_neg fun hd => hargs (by simp [isExtern, hd.1])
    · rfl
  conv_lhs => rw [← headerLines_append_bodyLines (terminated '\n' text)]
  rw [declared, List.filterMap_append, List.filterMap_append, hnone hfield, hnone hmethod,
    List.append_nil, List.append_nil]
  rfl

/-- The linker does not go out of bounds. -/
theorem PreLink.not_malformed {text : Line} (h : PreLink text) :
    ¬ Malformed (terminated '\n' text) := by
  rintro (⟨l, hl, hbad⟩ | ⟨l, hl, hbad⟩)
  · refine h.declarations l ?_ hbad
    rw [← headerLines_append_bodyLines (terminated '\n' text)]
    exact List.mem_append_left _ hl
  · exact not_malformedReference (h.well_spaced l hl) hbad

/-- The lines behind the header are resolved one after the other. -/
theorem PreLink.linkText_resolves {text : Line} (h : PreLink text) {maps : LinkMaps}
    {ps : Providers} (hm : Finds maps.methodMap ps.method) (hf : Finds maps.fieldMap ps.field) :
    ∃ st images, linkText maps text = some st ∧
      List.Forall₂ (Resolves ps maps.wideLdc (declared (terminated '\n' text)))
        (bodyLines (terminated '\n' text)) images ∧
      st.out = unlines '\n' ((headerLines (terminated '\n' text)).map headerImage ++
        images.reduceOption) ∧
      st.unresolvedInstancesCount = images.countP Option.isNone := by
  set ls := terminated '\n' text with hls
  refine ⟨linked maps ls, (bodyLines ls).map (bodyImage maps (declared ls)),
    (linkText_eq maps text).2 h.not_malformed, ?_, ?_, ?_⟩
  · rw [List.forall₂_map_right_iff, List.forall₂_same]
    exact fun l hl => resolves_bodyImage hm hf h.prototyped (h.well_spaced l hl)
  · have hkept : ((bodyLines ls).map (bodyImage maps (declared ls))).reduceOption =
        (bodyLines ls).filterMap (bodyImage maps (declared ls)) := List.filterMap_map
    rw [linked_out, ← h.declared_eq, hkept]
  · rw [List.countP_map, h.declared_eq]
    simp only [linked, LinkState.linkBody, LinkState.readHeader, LinkState.initial, Nat.zero_add]
    rfl

end Llxvm.Jlinker
