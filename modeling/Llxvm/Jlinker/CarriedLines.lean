import Mathlib.Data.List.Forall2
import Llxvm.Jlinker.LinePass

/-!
# Lines that the linker carries over

A text is carried over line by line, unless its last line has no newline behind it, a line makes
the linker go out of bounds, or the name of a class breaks a line in two.
-/

namespace Llxvm.Jlinker

open TextLines

/-! ## Newlines -/

section newline

variable {maps : LinkMaps} {l : Line}

theorem mem_of_mem_trimCopy {c : Char} (h : c ∈ trimCopy l) : c ∈ l := by
  unfold trimCopy rtrimCopy ltrimCopy at h
  rw [List.mem_reverse] at h
  exact (List.dropWhile_sublist _).mem (List.mem_reverse.mp ((List.dropWhile_sublist _).mem h))

theorem newline_not_mem_headerImage (hl : '\n' ∉ l) : '\n' ∉ headerImage l := by
  have htrim : '\n' ∉ trimCopy l := mt mem_of_mem_trimCopy hl
  unfold headerImage
  split_ifs
  · simpa using htrim
  · exact htrim

/-- The operand of a reference. -/
def Reference.operand : Reference → Line
  | invokeStatic m => m
  | getStatic f => f
  | classForMethod m => m

theorem newline_not_mem_operand (hl : '\n' ∉ l) {ext : Externs} {r : Reference}
    (hr : reference ext (operands l) = some r) : '\n' ∉ r.operand := by
  have hpiece : ∀ p ∈ operands l, '\n' ∉ p := fun p hp hmem =>
    hl (mem_of_mem_trimCopy (mem_of_mem_splitOn hp hmem))
  have hspace : '\n' ∉ " ".toList := by decide
  generalize operands l = args at *
  rcases args with - | ⟨instruction, - | ⟨name, args⟩⟩
  · cases hr
  · cases hr
  · have hname := hpiece name (by simp)
    simp only [reference] at hr
    split_ifs at hr
    · cases hr
      exact hname
    · rcases args with - | ⟨type, args⟩
      · cases hr
      · have htype := hpiece type (by simp)
        simp only at hr
        split_ifs at hr
        cases hr
        simp only [Reference.operand, List.mem_append, not_or]
        exact ⟨⟨hname, hspace⟩, htype⟩
    · cases hr
      exact hname

/-- Only the name of the class can break the line. -/
theorem newline_mem_target {r : Reference} (hr : '\n' ∉ r.operand) {t : Target}
    (ht : r.resolve maps = some t) : '\n' ∈ t.line ↔ '\n' ∈ t.className := by
  have hqualify {className before after : Line} (hbefore : '\n' ∉ before) (hafter : '\n' ∉ after)
      (h : qualify className before after = some t) : '\n' ∈ t.line ↔ '\n' ∈ t.className := by
    unfold qualify at h
    split_ifs at h
    cases h
    simp [Target.line, hbefore, hafter]
  have hslash : '\n' ∉ "/".toList := by decide
  cases r with
  | invokeStatic m =>
      have hm : '\n' ∉ m := hr
      have hinvoke : '\n' ∉ "\tinvokestatic ".toList := by decide
      have hproto : '\n' ∉ "/__non_prototyped__".toList := by decide
      have hvoid : '\n' ∉ "()V".toList := by decide
      unfold Reference.resolve at ht
      simp only at ht
      split at ht
      · cases ht
        simp only [Target.line, List.mem_append, hinvoke, hproto, hvoid, hm, or_false, false_or]
      · exact hqualify hinvoke (by simp only [List.mem_append, hslash, hm, or_self,
          not_false_eq_true]) ht
  | getStatic f =>
      have hf : '\n' ∉ f := hr
      exact hqualify (by decide) (by simp only [List.mem_append, hslash, hf, or_self,
        not_false_eq_true]) ht
  | classForMethod m =>
      refine hqualify ?_ (by decide) ht
      split_ifs
      · decide
      · decide

end newline

/-! ## The last line -/

theorem headerLines_append_singleton (ls : List Line) (r : Line) :
    headerLines (ls ++ [r]) =
      headerLines ls ++ if ls.any fun l => isMethod (directives l) then [] else [r] := by
  induction ls with
  | nil =>
      by_cases hr : isMethod (directives r) = true
      · simp [headerLines, hr]
      · simp [headerLines, hr]
  | cons l ls ih =>
      rw [List.cons_append, headerLines, headerLines, ih, List.any_cons]
      by_cases hl : isMethod (directives l) = true
      · simp [hl]
      · simp [hl]

theorem bodyLines_append_singleton (ls : List Line) (r : Line) :
    bodyLines (ls ++ [r]) =
      bodyLines ls ++ if ls.any fun l => isMethod (directives l) then [r] else [] := by
  induction ls with
  | nil =>
      by_cases hr : isMethod (directives r) = true
      · simp [bodyLines, hr]
      · simp [bodyLines, hr]
  | cons l ls ih =>
      rw [List.cons_append, bodyLines, bodyLines, ih, List.any_cons]
      by_cases hl : isMethod (directives l) = true
      · simp [hl]
      · simp [hl]

theorem linked_out (maps : LinkMaps) (ls : List Line) :
    (linked maps ls).out = unlines '\n' ((headerLines ls).map headerImage ++
      (bodyLines ls).filterMap (bodyImage maps (declared (headerLines ls)))) := by
  rw [unlines_append]
  rfl

/-! ## Carried lines -/

/-- The lines of the header come out as they are, trimmed or as comments, and those of the body as
they are or with their class, but for the unresolved references; each is one line again. -/
def CarriesLines (maps : LinkMaps) (text : Line) : Prop :=
  ∃ st hs bs, linkText maps text = some st ∧
    List.Forall₂ (fun l o => o = l ∨ o = trimCopy l ∨ o = ';' :: trimCopy l)
      (headerLines (allLines '\n' text)) hs ∧
    bs = (bodyLines (allLines '\n' text)).filterMap
      (bodyImage maps (declared (headerLines (allLines '\n' text)))) ∧
    (∀ o ∈ hs ++ bs, '\n' ∉ o) ∧ st.out = unlines '\n' (hs ++ bs)

/-- The text has a newline behind its last line, unless that is an unresolved reference; no line
makes the linker go out of bounds, and the classes of the references have no newlines. -/
structure Carriable (maps : LinkMaps) (text : Line) : Prop where
  last : remainder '\n' text = [] ∨
    ((terminated '\n' text).any fun l => isMethod (directives l)) ∧
      ∃ r, reference (declared (headerLines (terminated '\n' text)))
        (operands (remainder '\n' text)) = some r ∧ r.resolve maps = none
  in_bounds : ¬ Malformed (terminated '\n' text)
  className : ∀ l ∈ bodyLines (terminated '\n' text), ∀ r t,
    reference (declared (headerLines (terminated '\n' text))) (operands l) = some r →
      r.resolve maps = some t → '\n' ∉ t.className

theorem bodyImage_eq_none_iff {maps : LinkMaps} {ext : Externs} {l : Line} :
    bodyImage maps ext l = none ↔
      ∃ r, reference ext (operands l) = some r ∧ r.resolve maps = none := by
  unfold bodyImage
  cases reference ext (operands l) with
  | none => simp
  | some r => simp

/-- The lines of the body are not broken exactly if the names of their classes are not. -/
theorem newline_not_mem_bodyImages {maps : LinkMaps} {ext : Externs} {ls : List Line}
    (hls : ∀ l ∈ ls, '\n' ∉ l) :
    (∀ o ∈ ls.filterMap (bodyImage maps ext), '\n' ∉ o) ↔ ∀ l ∈ ls, ∀ r t,
      reference ext (operands l) = some r → r.resolve maps = some t → '\n' ∉ t.className := by
  constructor
  · intro h l hl r t hr ht
    have himage : bodyImage maps ext l = some t.line := by
      rw [bodyImage, hr]
      simp only [ht, Option.map_some]
    have hline := h t.line (List.mem_filterMap.mpr ⟨l, hl, himage⟩)
    rwa [newline_mem_target (newline_not_mem_operand (hls l hl) hr) ht] at hline
  · intro h o ho
    obtain ⟨l, hl, himage⟩ := List.mem_filterMap.mp ho
    unfold bodyImage at himage
    cases hr : reference ext (operands l) with
    | none =>
        rw [hr] at himage
        cases himage
        exact hls _ hl
    | some r =>
        rw [hr] at himage
        obtain ⟨t, ht, rfl⟩ := Option.map_eq_some_iff.mp himage
        rw [newline_mem_target (newline_not_mem_operand (hls l hl) hr) ht]
        exact h l hl r t hr ht

/-- The last line, if there is one without a newline, is in the body or in the header. -/
theorem allLines_cases (text : Line) :
    (remainder '\n' text = [] ∧ allLines '\n' text = terminated '\n' text) ∨
    (remainder '\n' text ≠ [] ∧
      ((terminated '\n' text).any fun l => isMethod (directives l)) = true ∧
      headerLines (allLines '\n' text) = headerLines (terminated '\n' text) ∧
      bodyLines (allLines '\n' text) =
        bodyLines (terminated '\n' text) ++ [remainder '\n' text]) ∨
    (remainder '\n' text ≠ [] ∧
      ((terminated '\n' text).any fun l => isMethod (directives l)) = false ∧
      headerLines (allLines '\n' text) =
        headerLines (terminated '\n' text) ++ [remainder '\n' text] ∧
      bodyLines (allLines '\n' text) = [] ∧ bodyLines (terminated '\n' text) = []) := by
  unfold allLines
  generalize terminated '\n' text = ls
  generalize remainder '\n' text = r
  by_cases hr : r = []
  · exact .inl ⟨hr, by rw [if_pos hr, List.append_nil]⟩
  · rw [if_neg hr, headerLines_append_singleton, bodyLines_append_singleton]
    cases hmethod : ls.any fun l => isMethod (directives l) with
    | true => exact .inr (.inl ⟨hr, rfl, by simp, by simp⟩)
    | false => exact .inr (.inr ⟨hr, rfl, by simp, by simp [bodyLines_eq_nil hmethod],
        bodyLines_eq_nil hmethod⟩)

/-- What comes out of a text in which nothing goes wrong. -/
theorem carriesLines_of_good {maps : LinkMaps} {text : Line}
    (hgood : ¬ Malformed (terminated '\n' text))
    (hheader : headerLines (allLines '\n' text) = headerLines (terminated '\n' text))
    (hbody : (bodyLines (allLines '\n' text)).filterMap
        (bodyImage maps (declared (headerLines (terminated '\n' text)))) =
      (bodyLines (terminated '\n' text)).filterMap
        (bodyImage maps (declared (headerLines (terminated '\n' text)))))
    (hclass : ∀ l ∈ bodyLines (terminated '\n' text), ∀ r t,
      reference (declared (headerLines (terminated '\n' text))) (operands l) = some r →
        r.resolve maps = some t → '\n' ∉ t.className) : CarriesLines maps text := by
  have hls : ∀ l ∈ headerLines (terminated '\n' text) ++ bodyLines (terminated '\n' text),
      '\n' ∉ l := by
    rw [headerLines_append_bodyLines]
    exact fun l => not_mem_of_mem_terminated
  refine ⟨_, (headerLines (terminated '\n' text)).map headerImage, _,
    (linkText_eq maps text).2 hgood, ?_, rfl, ?_, ?_⟩
  · rw [hheader, List.forall₂_map_right_iff, List.forall₂_same]
    intro l _
    unfold headerImage
    split_ifs
    · exact .inr (.inr rfl)
    · exact .inr (.inl rfl)
  · rw [hheader, hbody]
    intro o ho
    rcases List.mem_append.mp ho with ho | ho
    · obtain ⟨l, hl, rfl⟩ := List.mem_map.mp ho
      exact newline_not_mem_headerImage (hls l (List.mem_append_left _ hl))
    · exact (newline_not_mem_bodyImages fun l hl => hls l (List.mem_append_right _ hl)).mpr
        hclass o ho
  · rw [hheader, hbody, linked_out]

theorem CarriesLines.carriable {maps : LinkMaps} {text : Line} (h : CarriesLines maps text) :
    Carriable maps text := by
  have hls : ∀ l ∈ headerLines (terminated '\n' text) ++ bodyLines (terminated '\n' text),
      '\n' ∉ l := by
    rw [headerLines_append_bodyLines]
    exact fun l => not_mem_of_mem_terminated
  have himages := @newline_not_mem_bodyImages maps (declared (headerLines (terminated '\n' text))) _
    fun l hl => hls l (List.mem_append_right _ hl)
  obtain ⟨st, hs, bs, hlink, hforall, hbs, hnewline, hout⟩ := h
  have hgood : ¬ Malformed (terminated '\n' text) := by
    intro hbad
    rw [(linkText_eq maps text).1 hbad] at hlink
    cases hlink
  have hheaders : ∀ o ∈ (headerLines (terminated '\n' text)).map headerImage, '\n' ∉ o := by
    intro o ho
    obtain ⟨l, hl, rfl⟩ := List.mem_map.mp ho
    exact newline_not_mem_headerImage (hls l (List.mem_append_left _ hl))
  rw [(linkText_eq maps text).2 hgood, Option.some.injEq] at hlink
  rw [← hlink, linked_out] at hout
  -- the lines are counted by their newlines
  have hcount := congrArg (List.count '\n') hout
  rw [count_unlines hnewline, unlines_append, List.count_append, count_unlines hheaders,
    List.length_map, List.length_append, ← hforall.length_eq] at hcount
  rcases allLines_cases text with ⟨hr, hall⟩ | ⟨hr, hmethod, hh, hb⟩ | ⟨hr, hmethod, hh, hb, hb'⟩
  · rw [hall] at hbs
    refine ⟨.inl hr, hgood, himages.mp fun o ho => hnewline o ?_⟩
    rw [hbs]
    exact List.mem_append_right _ ho
  · rw [hh, hb, List.filterMap_append] at hbs
    have hclass : ∀ o ∈ (bodyLines (terminated '\n' text)).filterMap
        (bodyImage maps (declared (headerLines (terminated '\n' text)))), '\n' ∉ o := by
      intro o ho
      apply hnewline
      rw [hbs]
      exact List.mem_append_right _ (List.mem_append_left _ ho)
    rw [hh, count_unlines hclass, hbs, List.length_append] at hcount
    refine ⟨.inr ⟨hmethod, bodyImage_eq_none_iff.mp ?_⟩, hgood, himages.mp hclass⟩
    cases himage : bodyImage maps (declared (headerLines (terminated '\n' text)))
        (remainder '\n' text) with
    | none => rfl
    | some o =>
        rw [List.filterMap_cons, himage] at hcount
        simp at hcount
  · rw [hh, hb'] at hcount
    simp at hcount
    omega

/-- The texts that are carried over line by line. -/
theorem carriesLines_iff (maps : LinkMaps) (text : Line) :
    CarriesLines maps text ↔ Carriable maps text := by
  constructor
  · exact CarriesLines.carriable
  · rintro ⟨hlast, hgood, hclass⟩
    rcases allLines_cases text with ⟨hr, hall⟩ | ⟨hr, hmethod, hh, hb⟩ | ⟨hr, hmethod, hh, hb, hb'⟩
    · exact carriesLines_of_good hgood (by rw [hall]) (by rw [hall]) hclass
    · have hnone := bodyImage_eq_none_iff.mpr (hlast.resolve_left hr).2
      refine carriesLines_of_good hgood hh ?_ hclass
      rw [hb, List.filterMap_append, List.filterMap_cons, hnone]
      simp
    · have hany := (hlast.resolve_left hr).1
      rw [hmethod] at hany
      cases hany

/-- A method with no newline behind its last line. -/
def unterminated : Line := ".method public static f()V\n\treturn\n.end method".toList

theorem not_carriesLines_unterminated : ¬ CarriesLines ⟨[], [], false⟩ unterminated := by
  intro h
  rcases h.carriable.last with hlast | ⟨-, r, hr, -⟩
  · revert hlast
    decide +kernel
  · have hnone : (reference (declared (headerLines (terminated '\n' unterminated)))
        (operands (remainder '\n' unterminated))).isNone := by decide +kernel
    rw [hr] at hnone
    cases hnone

end Llxvm.Jlinker
