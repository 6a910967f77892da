import Ex6.PipelineMessages
/-!
# Where the buffers end

`listenAO` does not look at how much `recv` has written, and the stages look
for a terminator. `Contained` says that they find it in what was received; it
holds exactly in the runs in which every `recv` has brought a terminator.
-/
open Lib Lib.CString Ex6.Queue Ex6.Text

namespace Ex6.Pipeline
variable {w : Nat} {s s' : State w} {e : Event}

/-- If `recv` has returned bytes, or none at all, there is a terminator among them. -/
def Event.Terminated : Event → Prop
  | .recv _ _ (some data) => NUL ∈ data
  | _ => True

structure Contained (s : State w) : Prop where
  /-- A capsula on its way has a buffer. -/
  capsulas : ∀ c, ∀ x ∈ s.contents c, ∃ b < s.nbuffers, x.1.buffer = some b
  /-- The string in a buffer ends within what was received into it. -/
  terminated : ∀ b < s.nbuffers, ∃ n < s.written b, strlen NUL (s.buffers b) = some n
  /-- What was received into a buffer is within it. -/
  within : ∀ b < s.nbuffers, s.written b ≤ 1024 ∧ (s.buffers b).length = 1024
  /-- A stage's loop stops before the end of what was received. -/
  rewrites : ∀ t funq capsul i n, s.threads t = some (.ao_func funq (.loop capsul i n)) →
    ∃ b < s.nbuffers, capsul.buffer = some b ∧ n < s.written b
  /-- No `strlen` runs off its buffer. -/
  defined : ∀ t funq capsul, s.threads t ≠ some (.ao_func funq (.undefined capsul))
  /-- What is sent is made of what was received. -/
  sent : ∀ fd, s.sent fd <+: (s.received fd).map fun r => reply (cstr NUL r.2)
  /-- An answer is no longer than what was received for it. -/
  length : ∀ fd, ∀ r ∈ s.received fd, (reply (cstr NUL r.2)).length ≤ r.2.length

/-! ## What `recv` leaves in a buffer -/

/-- Where the terminators of a buffer are. -/
def marks (buffer : List Byte) : List Bool := buffer.map fun c => decide (c = NUL)

theorem convert_char_eq_nul (c : Byte) : decide (convert_char c = NUL) = decide (c = NUL) := by
  rw [convert_char_eq]
  exact decide_eq_decide.2 otherCase_eq_nul

theorem caesar_char_eq_nul (c : Byte) : decide (caesar_char c = NUL) = decide (c = NUL) := by
  rw [caesar_char_eq]
  exact decide_eq_decide.2 nextLetter_eq_nul

theorem char_eq_nul (f : BeforeFunc) (c : Byte) : decide (f.char c = NUL) = decide (c = NUL) := by
  cases f with
  | convert_opposite_case_letters => exact convert_char_eq_nul c
  | caesar_cipher_1 => exact caesar_char_eq_nul c

/-- No step moves a terminator, or touches how much was received. -/
theorem marks_step (hs : Step s e s') : s.nbuffers ≤ s'.nbuffers ∧
    ∀ b < s.nbuffers, marks (s'.buffers b) = marks (s.buffers b) ∧ s'.written b = s.written b := by
  cases hs with
  | recv =>
    refine ⟨Nat.le_succ _, fun b hb => ?_⟩
    simp only [Function.update_of_ne hb.ne, and_self]
  | @loop t funq capsul i n b ht hi hbuf =>
    refine ⟨Nat.le_refl _, fun k hk => ⟨?_, rfl⟩⟩
    by_cases hkb : k = b
    · subst hkb
      simp only [Function.update_self]
      exact map_modify (char_eq_nul funq.before_func) i (s.buffers k)
    · simp only [Function.update_of_ne hkb]
  | _ => exact ⟨Nat.le_refl _, fun _ _ => ⟨rfl, rfl⟩⟩

theorem strlen_step (hs : Step s e s') {b : Nat} (hb : b < s.nbuffers) :
    strlen NUL (s'.buffers b) = strlen NUL (s.buffers b) :=
  strlen_congr NUL ((marks_step hs).2 b hb).1

/-- Buffer `b` is the one `data` was received into. -/
structure Filled (s : State w) (b : Nat) (junk data : List Byte) : Prop where
  alloc : b < s.nbuffers
  junk_length : junk.length = 1024
  data_length : data.length ≤ 1024
  written : s.written b = data.length
  marks : marks (s.buffers b) = Pipeline.marks (overwrite junk data)

theorem Filled.step {b : Nat} {junk data : List Byte} (h : Filled s b junk data) (hs : Step s e s') :
    Filled s' b junk data := by
  obtain ⟨hle, hsame⟩ := marks_step hs
  obtain ⟨hm, hw⟩ := hsame b h.alloc
  exact ⟨Nat.lt_of_lt_of_le h.alloc hle, h.junk_length, h.data_length, hw.trans h.written, hm.trans h.marks⟩

theorem Filled.length {b : Nat} {junk data : List Byte} (h : Filled s b junk data) : (s.buffers b).length = 1024 := by
  have hl := congrArg List.length h.marks
  have h1 := h.junk_length
  have h2 := h.data_length
  simp only [Pipeline.marks, List.length_map, overwrite, List.length_append, List.length_drop] at hl
  omega

theorem Filled.terminated_iff {b : Nat} {junk data : List Byte} (h : Filled s b junk data) :
    (∃ n < s.written b, strlen NUL (s.buffers b) = some n) ↔ NUL ∈ data := by
  rw [h.written, strlen_congr NUL h.marks]
  exact strlen_overwrite_lt NUL

/-- A step that receives, and no other, fills a new buffer. -/
theorem alloc_step (hs : Step s e s') :
    (∃ t junk data, e = .recv t junk (some data) ∧ Filled s' s.nbuffers junk data ∧ s'.nbuffers = s.nbuffers + 1) ∨
      ((∀ t junk data, e ≠ .recv t junk (some data)) ∧ s'.nbuffers = s.nbuffers) := by
  cases hs with
  | @recv t caps junk data ht hj hd =>
    exact .inl ⟨t, junk, data, rfl, ⟨Nat.lt_succ_self _, hj, hd, by simp, by simp⟩, rfl⟩
  | _ => exact .inr ⟨(by rintro t junk data ⟨⟩), rfl⟩

/-- The buffers are those the run has received into, one for each `recv`. -/
theorem filled_run {s0 : State w} {evs : List Event} (h : (server w).Run s0 evs s) :
    (server w).init s0 → (∀ b < s.nbuffers, ∃ t junk data, .recv t junk (some data) ∈ evs ∧ Filled s b junk data) ∧
      ∀ t junk data, .recv t junk (some data) ∈ evs → ∃ b, Filled s b junk data := by
  refine h.inv (R := fun s0 evs s => (server w).init s0 →
    (∀ b < s.nbuffers, ∃ t junk data, .recv t junk (some data) ∈ evs ∧ Filled s b junk data) ∧
      ∀ t junk data, .recv t junk (some data) ∈ evs → ∃ b, Filled s b junk data) ?_ ?_
  · rintro s ⟨buffers, rfl⟩
    exact ⟨fun b hb => (by cases hb), fun t junk data h => (by cases h)⟩
  · intro s0 evs s e s' _ ih hs h0
    obtain ⟨hfrom, hto⟩ := ih h0
    constructor
    · intro b hb
      by_cases hlt : b < s.nbuffers
      · obtain ⟨t, junk, data, hm, hf⟩ := hfrom b hlt
        exact ⟨t, junk, data, List.mem_append_left _ hm, hf.step hs⟩
      · rcases alloc_step hs with ⟨t, junk, data, rfl, hf, hn⟩ | ⟨-, hn⟩
        · obtain rfl : b = s.nbuffers := by omega
          exact ⟨t, junk, data, by simp, hf⟩
        · omega
    · intro t junk data hm
      rcases List.mem_append.1 hm with hm | hm
      · obtain ⟨b, hb⟩ := hto t junk data hm
        exact ⟨b, hb.step hs⟩
      · rw [List.mem_singleton] at hm
        rcases alloc_step hs with ⟨t', junk', data', he, hf, -⟩ | ⟨hne, -⟩
        · rw [← hm] at he
          cases he
          exact ⟨_, hf⟩
        · exact absurd hm.symm (hne t junk data)

/-! ## With a terminator in all that is received -/

/-- What a thread has in hand has a buffer. -/
theorem load_buffer (h : Inv s) {t : Nat} {th : Thread} (ht : s.threads t = some th) :
    ∀ x ∈ load (some th), ∃ b < s.nbuffers, x.1.buffer = some b := by
  intro x hx
  obtain ⟨c, -, ⟨front, back, hat⟩, -⟩ := contents_at (h.wired t th ht)
  have hc := hat (s.threads t)
  rw [Function.update_eq_self, ht] at hc
  exact (h.belongs c x (by rw [hc]; simp [hx])).2.2

/-- A stage in its loop goes by the length of its string. -/
def Loops (s : State w) : Prop := ∀ t funq capsul i n, s.threads t = some (.ao_func funq (.loop capsul i n)) →
  ∃ b < s.nbuffers, capsul.buffer = some b ∧ strlen NUL (s.buffers b) = some n

/-- No thread has run off a buffer. -/
def Defined (s : State w) : Prop := ∀ t funq capsul, s.threads t ≠ some (.ao_func funq (.undefined capsul))

structure BufferInv (s : State w) : Prop where
  inv : Inv s
  terminated : ∀ b < s.nbuffers, ∃ n < s.written b, strlen NUL (s.buffers b) = some n
  loops : ∀ t funq capsul i n, s.threads t = some (.ao_func funq (.loop capsul i n)) →
    ∃ b < s.nbuffers, capsul.buffer = some b ∧ strlen NUL (s.buffers b) = some n
  defined : ∀ t funq capsul, s.threads t ≠ some (.ao_func funq (.undefined capsul))

theorem terminated_step (h : BufferInv s) (hs : Step s e s') (he : e.Terminated) :
    ∀ b < s'.nbuffers, ∃ n < s'.written b, strlen NUL (s'.buffers b) = some n := by
  intro b hb
  by_cases hlt : b < s.nbuffers
  · rw [((marks_step hs).2 b hlt).2, strlen_step hs hlt]
    exact h.terminated b hlt
  · rcases alloc_step hs with ⟨t, junk, data, rfl, hf, hn⟩ | ⟨-, hn⟩
    · obtain rfl : b = s.nbuffers := by omega
      exact hf.terminated_iff.2 he
    · omega

theorem loops_step (hi : Inv s) (h : Loops s) (hs : Step s e s') : Loops s' := by
  intro u funq' capsul' i' n' hu
  obtain ⟨hle, -⟩ := marks_step hs
  have hold : s.threads u = some (.ao_func funq' (.loop capsul' i' n')) →
      ∃ b < s'.nbuffers, capsul'.buffer = some b ∧ strlen NUL (s'.buffers b) = some n' := by
    intro hu
    obtain ⟨b, hb, hbuf, hlen⟩ := h u funq' capsul' i' n' hu
    exact ⟨b, Nat.lt_of_lt_of_le hb hle, hbuf, (strlen_step hs hb).trans hlen⟩
  cases hs with
  | accept_fails | accept => exact hold hu
  | @before t funq capsul b n ht hbuf hn =>
    rcases update_cases hu with ⟨-, hu⟩ | ⟨-, hth⟩
    · exact hold hu
    · cases hth
      obtain ⟨b', hb', hbuf'⟩ := load_buffer hi ht _ (List.mem_singleton.2 rfl)
      obtain rfl : b = b' := Option.some.inj (hbuf.symm.trans hbuf')
      exact ⟨b, hb', hbuf, hn⟩
  | @loop t funq capsul i n b ht hlt hbuf =>
    rcases update_cases hu with ⟨-, hu⟩ | ⟨-, hth⟩
    · exact hold hu
    · cases hth
      obtain ⟨b', hb', hbuf', hlen⟩ := h _ _ _ _ _ ht
      exact ⟨b', hb', hbuf', (strlen_step (.loop ht hlt hbuf) hb').trans hlen⟩
  | _ =>
    rcases update_cases hu with ⟨-, hu⟩ | ⟨-, hth⟩
    · exact hold hu
    · cases hth

/-- As long as there is a NUL in each buffer, no thread runs off one. -/
theorem defined_step (hi : Inv s) (hnul : ∀ b < s.nbuffers, strlen NUL (s.buffers b) ≠ none) (h : Defined s)
    (hs : Step s e s') : Defined s' := by
  intro u funq' capsul' hu
  cases hs with
  | accept_fails | accept => exact h u funq' capsul' hu
  | @before_undefined t funq capsul b ht hbuf hn =>
    obtain ⟨b', hb', hbuf'⟩ := load_buffer hi ht _ (List.mem_singleton.2 rfl)
    obtain rfl : b = b' := Option.some.inj (hbuf.symm.trans hbuf')
    exact hnul b hb' hn
  | @send_undefined t funq capsul b ht hf hbuf hn =>
    obtain ⟨b', hb', hbuf'⟩ := load_buffer hi ht _ (List.mem_singleton.2 rfl)
    obtain rfl : b = b' := Option.some.inj (hbuf.symm.trans hbuf')
    obtain ⟨n, hn'⟩ := Option.ne_none_iff_exists'.1 (hnul b hb')
    simp [Text.send_message, hn'] at hn
  | _ =>
    rcases update_cases hu with ⟨-, hu⟩ | ⟨-, hth⟩
    · exact h u funq' capsul' hu
    · cases hth

theorem BufferInv.nul (h : BufferInv s) : ∀ b < s.nbuffers, strlen NUL (s.buffers b) ≠ none := by
  intro b hb hn
  obtain ⟨n, -, hn'⟩ := h.terminated b hb
  rw [hn] at hn'
  cases hn'

theorem reachable_buffers (h : ((server w).under Event.Terminated).Reachable s) : BufferInv s := by
  apply h.under_inv (P := BufferInv)
  · rintro s ⟨buffers, rfl⟩
    exact ⟨inv_start buffers, fun b hb => (by cases hb), fun t funq capsul i n ht => (by cases ht),
      fun t funq capsul ht => (by cases ht)⟩
  · intro s e s' hi hs he
    exact ⟨inv_step hi.inv hs, terminated_step hi hs he, loops_step hi.inv hi.loops hs,
      defined_step hi.inv hi.nul hi.defined hs⟩

/-! ## Exactly then -/

theorem prefix_of_map_some {α : Type} {l l' : List α} {rest : List (Option α)} (h : l.map some ++ rest = l'.map some) :
    l <+: l' := by
  have hl : (l.map some).length ≤ (l'.map some).length := by
    rw [← h, List.length_append]; omega
  have ht : (l'.map some).take l.length = l.map some := by
    rw [← h]; exact List.take_left' (by simp)
  rw [← List.map_take] at ht
  exact List.prefix_iff_eq_take.2 (List.map_injective_iff.2 (fun _ _ he => Option.some.inj he) ht).symm

/-- What has been sent is made of what was received, in order. -/
theorem Inv.sent_starts (h : Inv s) {fd : Nat} {g : List Byte × List Byte → List Byte}
    (hg : ∀ r ∈ s.received fd, respond (overwrite r.1 r.2) = some (g r)) : s.sent fd <+: (s.received fd).map g := by
  by_cases hfd : fd ∈ s.conns
  · obtain ⟨c, hc⟩ := List.getElem?_of_mem hfd
    exact prefix_of_map_some (h.balanced_as hc hg)
  · rw [(h.silent fd hfd).1]
    exact List.nil_prefix

/-- In every state of a run all capsulas are terminated inside what was received
for them, every stage stays there, and what is sent is made of it: this holds if
and only if no `recv` of the run came back without a terminator. -/
theorem contained_iff {s0 : State w} {evs : List Event} (h0 : (server w).init s0) (h : (server w).Run s0 evs s) :
    Contained s ↔ ∀ e ∈ evs, e.Terminated := by
  obtain ⟨hfrom, hto⟩ := filled_run h h0
  refine ⟨fun hc e he => ?_, fun he => ?_⟩
  · cases e with
    | recv t junk data =>
      cases data with
      | none => trivial
      | some data =>
        obtain ⟨b, hb⟩ := hto t junk data he
        exact hb.terminated_iff.1 (hc.terminated b hb.alloc)
    | _ => trivial
  · have hr : ((server w).under Event.Terminated).Reachable s := (h.under he).reachable (.init h0)
    have hi := reachable_buffers hr
    have hall := received_all (P := fun _ data => NUL ∈ data) (fun _ _ _ he => he) hr
    constructor
    case capsulas => exact fun c x hx => (hi.inv.belongs c x hx).2.2
    case terminated => exact hi.terminated
    case within =>
      intro b hb
      obtain ⟨t, junk, data, -, hf⟩ := hfrom b hb
      exact ⟨hf.written ▸ hf.data_length, hf.length⟩
    case rewrites =>
      intro t funq capsul i n ht
      obtain ⟨b, hb, hbuf, hn⟩ := hi.loops t funq capsul i n ht
      obtain ⟨n', hlt, hn'⟩ := hi.terminated b hb
      rw [hn, Option.some.injEq] at hn'
      exact ⟨b, hb, hbuf, hn' ▸ hlt⟩
    case defined => exact hi.defined
    case sent => exact fun fd => hi.inv.sent_starts fun r hm => respond_overwrite (hall fd r hm)
    case length =>
      intro fd r hm
      have := cstr_length_lt NUL (hall fd r hm)
      simp only [length_reply]
      omega

/-- One buffer has been through a stage, and another just filled. -/
theorem contained_iff_second_message : ∃ s : State 64, (server 64).Reachable s ∧ s.nbuffers = 2 ∧
    (s.buffers 0).take 2 = [65#8, NUL] ∧ Contained s := by
  obtain ⟨s, evs, hr, -, -, hn, -, -, -, -, -, hbuf⟩ := second_message
  obtain ⟨hrun, hone⟩ := hr.of_under
  refine ⟨s, hrun.reachable (.init ⟨_, rfl⟩), hn, hbuf, (contained_iff ⟨_, rfl⟩ hrun).2 fun e he => ?_⟩
  have hmessage := hone e he
  cases e with
  | recv t junk data =>
    cases data with
    | none => trivial
    | some data =>
      obtain ⟨m, -, rfl⟩ := hmessage
      exact List.mem_append_right m (List.mem_singleton_self NUL)
  | _ => trivial

/-- A client that sends 1024 letters: the second thread is about to look for the
end of a string that has none. -/
theorem full_buffer : ∃ s : State 64, (server 64).Reachable s ∧ ∃ funq capsul,
    s.threads 1 = some (.ao_func funq (.before capsul)) ∧ capsul.buffer = some 0 ∧ 0 < s.nbuffers ∧
    s.written 0 = 1024 ∧ ¬ ∃ n < s.written 0, strlen NUL (s.buffers 0) = some n := by
  have hl : (List.replicate 1024 65#8).length = 1024 := List.length_replicate
  have r : (server 64).Reachable (start fun _ => []) := .init ⟨_, rfl⟩
  have r := r.step (@Step.accept _ _ 4 rfl (by decide))
  have r := r.step (Step.new_listenAO rfl)
  have r := r.step (Step.new_AO_convert rfl)
  have r := r.step (@Step.recv _ _ 0 _ (List.replicate 1024 NUL) (List.replicate 1024 65#8) rfl List.length_replicate
    (Nat.le_of_eq hl))
  have r := r.step (@Step.listen_enQ _ _ 0 _ _ _ 0 _ rfl rfl (by decide) rfl)
  have r := r.step (@Step.deQ _ _ 1 _ _ _ rfl rfl rfl)
  refine ⟨_, r, _, _, rfl, rfl, by decide, hl, ?_⟩
  rintro ⟨n, hn, hs⟩
  have hz : NUL ∈ List.replicate 1024 65#8 :=
    (@strlen_overwrite_lt Byte _ NUL (List.replicate 1024 NUL) _).1 ⟨n, hn, hs⟩
  rw [List.mem_replicate] at hz
  exact absurd hz.2 (by decide)

end Ex6.Pipeline
