import Mathlib.Data.List.Basic

/-!
# Readers of a stream

A reader takes elements from the front of a stream.  A read that finds too few of them takes
them all, and its value is unspecified: the stream says which value comes next.  `Reads` and
`Fails` describe a reader by the elements that it takes, and compose along sequences and loops.
-/

namespace StreamReader

/-- What is left of the elements, and of the unspecified values. -/
structure Stream (β υ : Type) where
  elems : List β
  unspecified : ℕ → υ

/-- A reader; `none` is undefined behaviour. -/
abbrev ReadM (β υ : Type) := StateT (Stream β υ) Option

variable {β υ α γ : Type}

/-- The next `n` elements, or as many as there are. -/
def take (n : ℕ) : ReadM β υ (List β) := fun s =>
  some (s.elems.take n, { s with elems := s.elems.drop n })

def unspecified : ReadM β υ υ := fun s =>
  some (s.unspecified 0, { s with unspecified := fun k => s.unspecified (k + 1) })

def undefined : ReadM β υ α := fun _ => none

/-- The loop that reads `n` values. -/
def times : ℕ → ReadM β υ α → ReadM β υ (List α)
  | 0, _ => return []
  | n + 1, x => do
    let a ← x
    return a :: (← times n x)

theorem read_bind (x : ReadM β υ α) (f : α → ReadM β υ γ) (s : Stream β υ) :
    (x >>= f) s = (x s).bind fun r => f r.1 r.2 := rfl

theorem read_pure (a : α) (s : Stream β υ) : (pure a : ReadM β υ α) s = some (a, s) := rfl

/-- The reader takes exactly the elements `bs`, and has the value `a`. -/
def Reads (x : ReadM β υ α) (bs : List β) (a : α) : Prop :=
  ∀ rest u, x ⟨bs ++ rest, u⟩ = some (a, ⟨rest, u⟩)

/-- The behaviour is undefined once the reader has met the elements `bs`. -/
def Fails (x : ReadM β υ α) (bs : List β) : Prop := ∀ rest u, x ⟨bs ++ rest, u⟩ = none

theorem reads_pure (a : α) : Reads (pure a : ReadM β υ α) [] a := fun _ _ => rfl

theorem Reads.bind {x : ReadM β υ α} {f : α → ReadM β υ γ} {bs cs : List β} {a : α} {b : γ}
    (hx : Reads x bs a) (hf : Reads (f a) cs b) : Reads (x >>= f) (bs ++ cs) b := by
  intro rest u
  rw [read_bind, List.append_assoc, hx, Option.bind_some, hf]

theorem Reads.map {x : ReadM β υ α} {bs : List β} {a : α} (hx : Reads x bs a) (f : α → γ) :
    Reads (do return f (← x)) bs (f a) := by
  have hmap := hx.bind (f := fun a => pure (f a)) (reads_pure (f a))
  rwa [List.append_nil] at hmap

theorem Fails.bind {x : ReadM β υ α} {bs : List β} (hx : Fails x bs) (f : α → ReadM β υ γ)
    (cs : List β) : Fails (x >>= f) (bs ++ cs) := by
  intro rest u
  rw [read_bind, List.append_assoc, hx, Option.bind_none]

theorem Reads.bind_fails {x : ReadM β υ α} {f : α → ReadM β υ γ} {bs cs : List β} {a : α}
    (hx : Reads x bs a) (hf : Fails (f a) cs) : Fails (x >>= f) (bs ++ cs) := by
  intro rest u
  rw [read_bind, List.append_assoc, hx, Option.bind_some, hf]

theorem reads_take (bs : List β) : Reads (take bs.length : ReadM β υ _) bs bs := by
  intro rest u
  simp [take]

theorem reads_times {δ : Type} {x : ReadM β υ α} {enc : δ → List β} {dec : δ → α} {ds : List δ}
    (h : ∀ d ∈ ds, Reads x (enc d) (dec d)) :
    Reads (times ds.length x) (ds.flatMap enc) (ds.map dec) := by
  induction ds with
  | nil => exact reads_pure []
  | cons d ds ih =>
      have htail := ih fun e he => h e (List.mem_cons_of_mem d he)
      exact (h d List.mem_cons_self).bind (htail.map (dec d :: ·))

/-- The loop fails at the first value at which its body fails. -/
theorem fails_times {δ : Type} {x : ReadM β υ α} {enc : δ → List β} {dec : δ → α} {ds : List δ}
    (h : ∀ d ∈ ds, Reads x (enc d) (dec d) ∨ Fails x (enc d)) {d : δ} (hd : d ∈ ds)
    (hfails : Fails x (enc d)) : Fails (times ds.length x) (ds.flatMap enc) := by
  induction ds with
  | nil => cases hd
  | cons e ds ih =>
      rcases h e List.mem_cons_self with hreads | hbad
      · rcases List.mem_cons.mp hd with rfl | hd
        · exact hfails.bind _ _
        · have htail := ih (fun e' he' => h e' (List.mem_cons_of_mem e he')) hd
          refine hreads.bind_fails ?_
          have hrest := htail.bind (fun as => (pure (dec e :: as) : ReadM β υ _)) []
          rwa [List.append_nil] at hrest
      · exact hbad.bind _ _

/-! ## Past the end of the stream -/

/-- With `v` for whatever is unspecified, the reader always has a value: it takes elements that
are as `P` says, or everything that is left. -/
def Continues (v : υ) (x : ReadM β υ α) (P : α → List β → Prop) : Prop :=
  ∀ bs, ∃ a rest, x ⟨bs, fun _ => v⟩ = some (a, ⟨rest, fun _ => v⟩) ∧
    ((∃ pre, bs = pre ++ rest ∧ P a pre) ∨ rest = [])

section continues

variable {v : υ}

theorem continues_pure (a : α) : Continues v (pure a : ReadM β υ α) fun b pre => b = a ∧ pre = [] :=
  fun bs => ⟨a, bs, rfl, .inl ⟨[], rfl, rfl, rfl⟩⟩

theorem Continues.mono {x : ReadM β υ α} {P Q : α → List β → Prop} (h : Continues v x P)
    (hPQ : ∀ a pre, P a pre → Q a pre) : Continues v x Q := by
  intro bs
  obtain ⟨a, rest, hrun, hcases⟩ := h bs
  exact ⟨a, rest, hrun, hcases.imp_left fun ⟨pre, heq, hP⟩ => ⟨pre, heq, hPQ a pre hP⟩⟩

theorem Continues.bind {x : ReadM β υ α} {f : α → ReadM β υ γ} {P : α → List β → Prop}
    {Q : α → γ → List β → Prop} (hx : Continues v x P) (hf : ∀ a, Continues v (f a) (Q a)) :
    Continues v (x >>= f) fun b pre => ∃ a p q, P a p ∧ Q a b q ∧ pre = p ++ q := by
  intro bs
  obtain ⟨a, bs', hrun, hfirst⟩ := hx bs
  obtain ⟨b, rest, hrun', hsecond⟩ := hf a bs'
  refine ⟨b, rest, by rw [read_bind, hrun, Option.bind_some, hrun'], ?_⟩
  rcases hsecond with ⟨q, rfl, hQ⟩ | hnil
  · rcases hfirst with ⟨p, rfl, hP⟩ | hnil
    · exact .inl ⟨p ++ q, by rw [List.append_assoc], a, p, q, hP, hQ, rfl⟩
    · exact .inr (List.append_eq_nil_iff.mp hnil).2
  · exact .inr hnil

theorem Continues.map {x : ReadM β υ α} {P : α → List β → Prop} (hx : Continues v x P)
    (f : α → γ) : Continues v (do return f (← x)) fun b pre => ∃ a, b = f a ∧ P a pre := by
  refine (hx.bind fun a => continues_pure (f a)).mono ?_
  rintro b pre ⟨a, p, q, hP, ⟨rfl, rfl⟩, rfl⟩
  exact ⟨a, rfl, by rwa [List.append_nil]⟩

theorem continues_take (n : ℕ) :
    Continues v (take n : ReadM β υ _) fun bs pre => pre = bs ∧ bs.length = n := by
  intro bs
  refine ⟨bs.take n, bs.drop n, rfl, ?_⟩
  by_cases h : n ≤ bs.length
  · exact .inl ⟨bs.take n, (List.take_append_drop n bs).symm, rfl, by simp [h]⟩
  · exact .inr (List.drop_eq_nil_of_le (Nat.le_of_not_le h))

end continues

end StreamReader
