import SecureTape.Proofs.Batches
import SecureTape.Proofs.Edits

/-!
# How a program evolves

Main statements:
1. `Program.Evolves`: what holds between a program and what an action makes of it, also if the
   action fails. Its tapes have been edited, and tapes may have been added.
2. `Program.Coherent.edits`: edits of one tape let a program evolve.
3. `Program.Evolves.within`: a program evolves also while a new tape is the current one.
-/

namespace SecureTape

open Action RegisterFile List

variable {t : Template} {f : Tape → Tape}

namespace MacroCache

def lookup (c : MacroCache) (key : MacroKey) : Option Template :=
  c.templates.find? (·.key = key)

theorem lookup_insert (c : MacroCache) (t : Template) (key : MacroKey) :
    (c.insert t).lookup key = if t.key = key then some t else c.lookup key := by
  unfold lookup insert
  rw [find?_append, find?_filter]
  by_cases h : t.key = key
  · rw [if_pos h, find?_eq_none.2]
    · simp [h]
    · intro s _
      simp only [decide_eq_true_eq, not_and]
      intro hne heq
      exact hne (heq.trans h.symm)
  · have hsame : (fun s : Template => decide (decide (s.key ≠ t.key) = true ∧
        decide (s.key = key) = true)) = fun s => decide (s.key = key) := by
      funext s
      by_cases hs : s.key = key
      · simp [hs, Ne.symm h]
      · simp [hs]
    rw [if_neg h, hsame]
    simp [h]

theorem key_of_lookup {c : MacroCache} {key : MacroKey} (h : c.lookup key = some t) :
    t.key = key := by
  simpa using find?_some h

end MacroCache

namespace Program

variable {p q r : Program}

/-! ## Tapes of a program -/

theorem tapeAt_of_size_le {id : TapeId} (h : p.tapes.size ≤ id) : p.tapeAt id = default := by
  rw [tapeAt, Array.getD_eq_getD_getElem?, Array.getElem?_eq_none h]
  rfl

theorem tapeAt_modifyTape (p : Program) (id : TapeId) (f : Tape → Tape) (j : TapeId) :
    (p.modifyTape id f).tapeAt j =
      if j = id ∧ id < p.tapes.size then f (p.tapeAt id) else p.tapeAt j :=
  getD_modify p.tapes default id j f

theorem tapeAt_modifyTape_self {id : TapeId} (hid : id < p.tapes.size) (f : Tape → Tape) :
    (p.modifyTape id f).tapeAt id = f (p.tapeAt id) := by
  rw [tapeAt_modifyTape, if_pos ⟨rfl, hid⟩]

theorem size_modifyTape (p : Program) (id : TapeId) (f : Tape → Tape) :
    (p.modifyTape id f).tapes.size = p.tapes.size := Array.size_modify

theorem tapeAt_push (p : Program) (t : Tape) (j : TapeId) :
    ({ p with tapes := p.tapes.push t } : Program).tapeAt j =
      if j = p.tapes.size then t else p.tapeAt j :=
  getD_push p.tapes default t j

theorem tapeAt_take (p : Program) {n j : Nat} (hj : j < n) :
    ({ p with tapes := p.tapes.take n } : Program).tapeAt j = p.tapeAt j := by
  unfold tapeAt
  rw [Array.getD_eq_getD_getElem?, Array.getD_eq_getD_getElem?, Array.take, Array.getElem?_extract]
  by_cases hlt : j < p.tapes.size
  · rw [if_pos (by omega), Nat.zero_add]
  · simp [hlt]

/-! ## Coherent programs -/

/-- All tapes are sound, and every macro call on a tape has the template that its key has. -/
structure Coherent (p : Program) : Prop where
  current_lt : p.current < p.tapes.size
  sound : ∀ {id}, id < p.tapes.size → (p.tapeAt id).Sound
  id_eq : ∀ {id}, id < p.tapes.size → (p.tapeAt id).id = id
  parametric : ∀ {key t}, p.macros.lookup key = some t → t.Parametric
  cached : ∀ {id c}, id < p.tapes.size → (p.tapeAt id).Calls c →
    p.macros.lookup c.key = some c.template

/-- The program `q` is what actions can make of `p`. -/
structure Evolves (p q : Program) : Prop where
  coherent : q.Coherent
  options : q.options = p.options
  current : q.current = p.current
  size_le : p.tapes.size ≤ q.tapes.size
  tape : ∀ {id}, id < p.tapes.size →
    Tape.Edits p.options (id = p.current) (p.tapeAt id) (q.tapeAt id)
  born : ∀ {id}, p.tapes.size ≤ id → id < q.tapes.size → ∃ name kind singular root,
    Tape.Edits p.options True (Tape.new id name kind singular root) (q.tapeAt id)
  cache : ∀ {key t}, p.macros.lookup key = some t → q.macros.lookup key = some t
  /-- There is one tape for the batches of a macro at a width. -/
  batches : (p.macroTapes.map (·.1)).Nodup → (q.macroTapes.map (·.1)).Nodup

namespace Evolves

theorem lt {id : TapeId} (h : Evolves p q) (hid : id < p.tapes.size) : id < q.tapes.size :=
  Nat.lt_of_lt_of_le hid h.size_le

instance : IsTrans Program Evolves where
  trans p q r hpq hqr := by
    refine ⟨hqr.coherent, hqr.options.trans hpq.options, hqr.current.trans hpq.current,
      Nat.le_trans hpq.size_le hqr.size_le, ?_, ?_,
      fun h => hqr.cache (hpq.cache h), fun h => hqr.batches (hpq.batches h)⟩
    · intro id hid
      have hnext := hqr.tape (hpq.lt hid)
      rw [hpq.options, hpq.current] at hnext
      exact (hpq.tape hid).trans hnext
    · intro id hid hlt
      by_cases hq : id < q.tapes.size
      · obtain ⟨name, kind, singular, root, hborn⟩ := hpq.born hid hq
        have hnext := (hqr.tape hq).mono (fun _ => True.intro)
        rw [hpq.options] at hnext
        exact ⟨name, kind, singular, root, hborn.trans hnext⟩
      · have hborn := hqr.born (Nat.le_of_not_lt hq) hlt
        rwa [hpq.options] at hborn

theorem refl (hp : p.Coherent) : Evolves p p :=
  ⟨hp, rfl, rfl, Nat.le_refl _, fun _ => .refl, fun h h' => absurd h' (Nat.not_lt.2 h), id, id⟩

end Evolves

/-! ## Steps of evolution -/

theorem Coherent.aside (hp : p.Coherent) (htapes : q.tapes = p.tapes)
    (hoptions : q.options = p.options) (hcurrent : q.current = p.current)
    (hmacros : ∀ key, q.macros.lookup key = p.macros.lookup key)
    (hbatches : (p.macroTapes.map (·.1)).Nodup → (q.macroTapes.map (·.1)).Nodup) :
    Evolves p q := by
  have htape (id : TapeId) : q.tapeAt id = p.tapeAt id := by rw [tapeAt, htapes, tapeAt]
  refine ⟨⟨?_, ?_, ?_, ?_, ?_⟩, hoptions, hcurrent, ?_, ?_, ?_, ?_, hbatches⟩
  · rw [hcurrent, htapes]
    exact hp.current_lt
  · intro id hid
    rw [htape]
    exact hp.sound (htapes ▸ hid)
  · intro id hid
    rw [htape]
    exact hp.id_eq (htapes ▸ hid)
  · intro key t ht
    exact hp.parametric (hmacros key ▸ ht)
  · intro id c hid hc
    rw [htape] at hc
    rw [hmacros]
    exact hp.cached (htapes ▸ hid) hc
  · exact Nat.le_of_eq (congrArg Array.size htapes.symm)
  · intro id _
    rw [htape]
    exact .refl
  · intro id hid hlt
    rw [htapes] at hlt
    exact absurd hlt (Nat.not_lt.2 hid)
  · intro key t ht
    rw [hmacros]
    exact ht

/-- The program, with the code of another one. -/
def withCode (q p : Program) : Program :=
  { q with
    tapes := p.tapes, options := p.options, current := p.current
    macros := p.macros, macroTapes := p.macroTapes }

theorem Coherent.beside (hp : p.Coherent) (h : q = q.withCode p) : Evolves p q := by
  rw [h]
  exact hp.aside rfl rfl rfl (fun _ => rfl) fun h => h

variable {id : TapeId}

theorem Coherent.edits (hp : p.Coherent)
    (h : id < p.tapes.size → Tape.Edits p.options (id = p.current) (p.tapeAt id) (f (p.tapeAt id)))
    (hcalls : ∀ {c}, id < p.tapes.size → (f (p.tapeAt id)).Calls c →
      p.macros.lookup c.key = some c.template) :
    Evolves p (p.modifyTape id f) := by
  have hcases (j : TapeId) : (j = id ∧ id < p.tapes.size ∧
      (p.modifyTape id f).tapeAt j = f (p.tapeAt id)) ∨
      (p.modifyTape id f).tapeAt j = p.tapeAt j := by
    rw [tapeAt_modifyTape]
    split
    · rename_i hj
      exact .inl ⟨hj.1, hj.2, rfl⟩
    · exact .inr rfl
  refine ⟨⟨?_, ?_, ?_, hp.parametric, ?_⟩, rfl, rfl, ?_, ?_, ?_, fun ht => ht, fun h => h⟩
  · rw [size_modifyTape]
    exact hp.current_lt
  · intro j hj
    rcases hcases j with ⟨rfl, hlt, heq⟩ | heq
    · rw [heq]
      exact (h hlt).sound (hp.sound hlt)
    · rw [heq]
      exact hp.sound (size_modifyTape p id f ▸ hj)
  · intro j hj
    rcases hcases j with ⟨rfl, hlt, heq⟩ | heq
    · rw [heq, (h hlt).id_eq, hp.id_eq hlt]
    · rw [heq, hp.id_eq (size_modifyTape p id f ▸ hj)]
  · intro j c hj hc
    rcases hcases j with ⟨rfl, hlt, heq⟩ | heq
    · rw [heq] at hc
      exact hcalls hlt hc
    · rw [heq] at hc
      exact hp.cached (size_modifyTape p id f ▸ hj) hc
  · exact Nat.le_of_eq (size_modifyTape p id f).symm
  · intro j hj
    rcases hcases j with ⟨rfl, hlt, heq⟩ | heq
    · rw [heq]
      exact h hlt
    · rw [heq]
      exact .refl
  · intro j hj hlt
    rw [size_modifyTape] at hlt
    exact absurd hlt (Nat.not_lt.2 hj)

theorem Coherent.quietEdits (hp : p.Coherent)
    (h : id < p.tapes.size → Tape.Edits p.options False (p.tapeAt id) (f (p.tapeAt id))) :
    Evolves p (p.modifyTape id f) := by
  refine hp.edits (fun hid => (h hid).mono False.elim) ?_
  intro c hid hc
  exact hp.cached hid (((h hid).calls_cases (hp.sound hid) hc).resolve_right not_false)

theorem Coherent.quietEdit (hp : p.Coherent)
    (h : id < p.tapes.size → Tape.Edit p.options False (p.tapeAt id) (f (p.tapeAt id))) :
    Evolves p (p.modifyTape id f) :=
  hp.quietEdits fun hid => .single (h hid)

theorem Coherent.addTape (hp : p.Coherent) {t : Tape} {name : String} {kind : TapeKind}
    {singular : Bool} {root : NodeId}
    (h : Tape.Edits p.options False (Tape.new p.tapes.size name kind singular root) t) :
    Evolves p { p with tapes := p.tapes.push t } := by
  have hnew := Tape.Sound.new p.tapes.size name kind singular root
  have hsize : (p.tapes.push t).size = p.tapes.size + 1 := Array.size_push t
  have hcalls {c : MacroCall} (hc : t.Calls c) : False :=
    (h.calls_cases hnew hc).elim Tape.not_calls_new id
  have hcases (j : TapeId) (hj : j < p.tapes.size + 1) :
      (j = p.tapes.size ∧ ({ p with tapes := p.tapes.push t } : Program).tapeAt j = t) ∨
      (j < p.tapes.size ∧
        ({ p with tapes := p.tapes.push t } : Program).tapeAt j = p.tapeAt j) := by
    rw [tapeAt_push]
    split
    · rename_i heq
      exact .inl ⟨heq, rfl⟩
    · rename_i hne
      exact .inr ⟨Nat.lt_of_le_of_ne (Nat.le_of_lt_succ hj) hne, rfl⟩
  refine ⟨⟨?_, ?_, ?_, hp.parametric, ?_⟩, rfl, rfl, ?_, ?_, ?_, fun ht => ht, fun h => h⟩
  · exact hsize ▸ Nat.lt_succ_of_lt hp.current_lt
  · intro j hj
    rcases hcases j (hsize ▸ hj) with ⟨rfl, heq⟩ | ⟨hlt, heq⟩
    · rw [heq]
      exact h.sound hnew
    · rw [heq]
      exact hp.sound hlt
  · intro j hj
    rcases hcases j (hsize ▸ hj) with ⟨rfl, heq⟩ | ⟨hlt, heq⟩
    · rw [heq, h.id_eq]
      rfl
    · rw [heq, hp.id_eq hlt]
  · intro j c hj hc
    rcases hcases j (hsize ▸ hj) with ⟨rfl, heq⟩ | ⟨hlt, heq⟩
    · rw [heq] at hc
      exact (hcalls hc).elim
    · rw [heq] at hc
      exact hp.cached hlt hc
  · exact hsize ▸ Nat.le_succ _
  · intro j hj
    rw [tapeAt_push, if_neg (Nat.ne_of_lt hj)]
    exact .refl
  · intro j hj hlt
    rcases hcases j (hsize ▸ hlt) with ⟨rfl, heq⟩ | ⟨hlt, -⟩
    · rw [heq]
      exact ⟨name, kind, singular, root, h.mono False.elim⟩
    · exact absurd hlt (Nat.not_lt.2 hj)

theorem Coherent.turnTo (hp : p.Coherent) (hid : id < p.tapes.size) :
    Coherent { p with current := id } :=
  ⟨hid, hp.sound, hp.id_eq, hp.parametric, hp.cached⟩

namespace Evolves

theorem calls (h : Evolves p q) (hp : p.Coherent) (hid : id < p.tapes.size) (hne : id ≠ p.current)
    {c : MacroCall} (hc : (q.tapeAt id).Calls c) : (p.tapeAt id).Calls c :=
  ((h.tape hid).calls_cases (hp.sound hid) hc).resolve_right hne

theorem owns (h : Evolves p q) (hp : p.Coherent) (hid : id < p.tapes.size) {r : Reg}
    (hr : (p.tapeAt id).regs.owns r) : (q.tapeAt id).regs.owns r :=
  ((h.tape hid).covers (hp.sound hid)).owns hr

/-- A program evolves while a tape that is new in it is the current one. -/
theorem within (h : Evolves p q) (hp : p.Coherent) (hid : p.tapes.size ≤ id)
    (h' : Evolves { q with current := id } r) : Evolves p { r with current := p.current } := by
  have hsize : q.tapes.size ≤ r.tapes.size := h'.size_le
  have hne {j : TapeId} (hj : j < p.tapes.size) : j ≠ id :=
    Nat.ne_of_lt (Nat.lt_of_lt_of_le hj hid)
  refine ⟨⟨?_, h'.coherent.sound, h'.coherent.id_eq, h'.coherent.parametric, h'.coherent.cached⟩,
    h'.options.trans h.options, rfl, Nat.le_trans h.size_le hsize, ?_, ?_,
    fun ht => h'.cache (h.cache ht), fun hb => h'.batches (h.batches hb)⟩
  · exact Nat.lt_of_lt_of_le hp.current_lt (Nat.le_trans h.size_le hsize)
  · intro j hj
    have hnext : Tape.Edits _ (j = p.current) _ _ :=
      (h'.tape (h.lt hj)).mono fun heq => absurd heq (hne hj)
    rw [show Program.options { q with current := id } = p.options from h.options] at hnext
    exact (h.tape hj).trans hnext
  · intro j hj hlt
    by_cases hq : j < q.tapes.size
    · obtain ⟨name, kind, singular, root, hborn⟩ := h.born hj hq
      have hnext := (h'.tape hq).mono fun _ => True.intro
      rw [show Program.options { q with current := id } = p.options from h.options] at hnext
      exact ⟨name, kind, singular, root, hborn.trans hnext⟩
    · have hborn := h'.born (Nat.le_of_not_lt hq) hlt
      rwa [show Program.options { q with current := id } = p.options from h.options] at hborn

theorem truncate (h : Evolves p q) (hp : p.Coherent) :
    Evolves p { q with tapes := q.tapes.take p.tapes.size } := by
  have hsize : (q.tapes.take p.tapes.size).size = p.tapes.size := by
    rw [Array.take, Array.size_extract]
    have := h.size_le
    omega
  refine ⟨⟨?_, ?_, ?_, h.coherent.parametric, ?_⟩, h.options, h.current, ?_, ?_, ?_, h.cache, h.batches⟩
  · show q.current < (q.tapes.take p.tapes.size).size
    rw [h.current, hsize]
    exact hp.current_lt
  · intro j hj
    rw [tapeAt_take q (hsize ▸ hj)]
    exact h.coherent.sound (h.lt (hsize ▸ hj))
  · intro j hj
    rw [tapeAt_take q (hsize ▸ hj)]
    exact h.coherent.id_eq (h.lt (hsize ▸ hj))
  · intro j c hj hc
    rw [tapeAt_take q (hsize ▸ hj)] at hc
    exact h.coherent.cached (h.lt (hsize ▸ hj)) hc
  · exact Nat.le_of_eq hsize.symm
  · intro j hj
    rw [tapeAt_take q hj]
    exact h.tape hj
  · intro j hj hlt
    exact absurd (hsize ▸ hlt) (Nat.not_lt.2 hj)

theorem insert (h : Evolves p q) (hp : p.Coherent) (ht : t.Parametric)
    (hnew : p.macros.lookup t.key = none) (hsize : q.tapes.size = p.tapes.size)
    (hcalls : ∀ {id c}, id < p.tapes.size → (q.tapeAt id).Calls c → (p.tapeAt id).Calls c) :
    Evolves p { q with macros := q.macros.insert t } := by
  have hold {key : MacroKey} {s : Template} (hs : p.macros.lookup key = some s) :
      (q.macros.insert t).lookup key = some s := by
    rw [MacroCache.lookup_insert, if_neg]
    · exact h.cache hs
    · rintro rfl
      cases hnew.symm.trans hs
  refine ⟨⟨h.coherent.current_lt, h.coherent.sound, h.coherent.id_eq, ?_, ?_⟩, h.options,
    h.current, h.size_le, h.tape, h.born, hold, h.batches⟩
  · intro key s hs
    replace hs : (q.macros.insert t).lookup key = some s := hs
    rw [MacroCache.lookup_insert] at hs
    split at hs
    · cases hs
      exact ht
    · exact h.coherent.parametric hs
  · intro id c hid hc
    have hid' : id < p.tapes.size := hsize ▸ hid
    exact hold (hp.cached hid' (hcalls hid' hc))

end Evolves

end Program

end SecureTape
