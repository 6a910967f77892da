import Ex6.PipelineOrder
/-!
# A listener and the end of its client's stream

`listenAO` takes what `recv` returns for a message unless it is -1, and so the 0
that every call returns once the client has closed. `listener_never_ends` says
that the thread then goes on, with a new capsula for each call.
-/
open Lib Ex6.Queue

namespace Ex6.Pipeline
variable {w : Nat} {s s' : State w} {e : Event} {evs : List Event} {t : Nat}

/-- What a `recv` of thread `t` returned. -/
def Event.read (t : Nat) : Event → Option (Option (List Byte))
  | .recv u _ data => if u = t then some data else none
  | _ => none

/-- Thread `t` calls `enQ`. -/
def Event.enqueues (t : Nat) : Event → Bool
  | .enQ u _ => u = t
  | _ => false

/-- What the `recv`s of thread `t` returned, one by one. -/
def reads (t : Nat) (evs : List Event) : List (Option (List Byte)) := evs.filterMap (Event.read t)

/-- How many capsulas thread `t` has enqueued. -/
def enqueues (t : Nat) (evs : List Event) : Nat := evs.countP (Event.enqueues t)

/-- The client of thread `t` sends `msgs` and closes: what there is to read so far. -/
def Follows (msgs : List (List Byte)) (t : Nat) (evs : List Event) : Prop :=
  ∃ n, reads t evs <+: (msgs ++ List.replicate n []).map some

/-- A listener that has read the end of such a session has enqueued no more than
the messages, and can go on to return with just these enqueued. -/
def Ends (w : Nat) (msgs : List (List Byte)) : Prop :=
  ∀ buffers evs (s : State w) t caps pc, (server w).Run (start buffers) evs s →
    s.threads t = some (.listenAO caps pc) → Follows msgs t evs → msgs.length < (reads t evs).length →
    enqueues t evs ≤ msgs.length ∧
    ∃ evs' s', (server w).Run s evs' s' ∧ Follows msgs t (evs ++ evs') ∧
      s'.threads t = some (.listenAO caps .returned) ∧ enqueues t (evs ++ evs') = msgs.length

/-! ## A capsula for every read -/

/-- How far thread `t` has come with what it has read. -/
def Progress (t : Nat) (evs : List Event) : Option Thread → Prop
  | none => reads t evs = [] ∧ enqueues t evs = 0
  | some (.listenAO _ .recv) => none ∉ reads t evs ∧ enqueues t evs = (reads t evs).length
  | some (.listenAO _ (.enQ _)) => none ∉ reads t evs ∧ enqueues t evs + 1 = (reads t evs).length
  | some (.listenAO _ .returned) => none ∈ reads t evs
  | some (.ao_func _ _) => True

theorem reads_snoc (t : Nat) (evs : List Event) (e : Event) :
    reads t (evs ++ [e]) = reads t evs ++ (e.read t).toList := by
  unfold reads
  rw [List.filterMap_append]
  cases h : e.read t <;> simp [h]

theorem enqueues_snoc (t : Nat) (evs : List Event) (e : Event) :
    enqueues t (evs ++ [e]) = enqueues t evs + if e.enqueues t then 1 else 0 := by
  unfold enqueues
  rw [List.countP_append, List.countP_singleton]

theorem reads_append (t : Nat) (evs evs' : List Event) : reads t (evs ++ evs') = reads t evs ++ reads t evs' :=
  List.filterMap_append

theorem enqueues_append (t : Nat) (evs evs' : List Event) :
    enqueues t (evs ++ evs') = enqueues t evs + enqueues t evs' :=
  List.countP_append

/-- What another thread does is nothing to `t`. -/
theorem Progress.keep {th : Option Thread} (h : Progress t evs th) (hr : e.read t = none) (hq : e.enqueues t = false) :
    Progress t (evs ++ [e]) th := by
  have hreads : reads t (evs ++ [e]) = reads t evs := by rw [reads_snoc, hr]; simp
  have henq : enqueues t (evs ++ [e]) = enqueues t evs := by rw [enqueues_snoc, hq]; rfl
  unfold Progress at h ⊢
  rw [hreads, henq]
  exact h

/-- Thread `u` goes on to `th'`. -/
theorem progress_goto {threads : Nat → Option Thread} {u : Nat} {th' : Thread}
    (h : ∀ t, Progress t evs (threads t)) (hr : ∀ t, u ≠ t → e.read t = none)
    (hq : ∀ t, u ≠ t → e.enqueues t = false) (hu : Progress u (evs ++ [e]) (some th')) :
    ∀ t, Progress t (evs ++ [e]) (Function.update threads u (some th') t) := by
  intro t
  by_cases ht : t = u
  · subst ht; rw [Function.update_self]; exact hu
  · rw [Function.update_of_ne ht]
    exact (h t).keep (hr t (Ne.symm ht)) (hq t (Ne.symm ht))

theorem progress_step (hi : Inv s) (h : ∀ t, Progress t evs (s.threads t)) (hs : Step s e s') :
    ∀ t, Progress t (evs ++ [e]) (s'.threads t) := by
  have hnew : Progress s.nthreads evs none := by
    have hn := h s.nthreads
    rw [hi.unborn _ (Nat.le_refl _)] at hn
    exact hn
  cases hs with
  | accept_fails | accept => exact fun t => (h t).keep rfl rfl
  | new_listenAO =>
    have hnone := hnew.keep (e := .create) rfl rfl
    refine progress_goto h (fun _ _ => rfl) (fun _ _ => rfl) ⟨?_, ?_⟩
    · rw [hnone.1]; simp
    · rw [hnone.1, hnone.2]; rfl
  | new_AO_convert | new_AO_caesar => exact progress_goto h (fun _ _ => rfl) (fun _ _ => rfl) trivial
  | @recv u caps junk data hu hj hd =>
    have hp := h u
    rw [hu] at hp
    refine progress_goto h (fun t ht => if_neg ht) (fun _ _ => rfl) ⟨?_, ?_⟩
    · rw [reads_snoc]; simpa [Event.read] using hp.1
    · rw [reads_snoc, enqueues_snoc, hp.2]; simp [Event.read, Event.enqueues]
  | @recv_fails u caps junk hu =>
    refine progress_goto h (fun t ht => if_neg ht) (fun _ _ => rfl) ?_
    show none ∈ _
    rw [reads_snoc]
    simp [Event.read]
  | @listen_enQ u caps capsul q a q' hu hq ha he =>
    have hp := h u
    rw [hu] at hp
    refine progress_goto h (fun _ _ => rfl) (fun t ht => decide_eq_false ht) ⟨?_, ?_⟩
    · rw [reads_snoc]; simpa [Event.read] using hp.1
    · rw [reads_snoc, enqueues_snoc]; simpa [Event.read, Event.enqueues] using hp.2
  | deQ | before | before_undefined | loop | leave | send_message | send_undefined =>
    exact progress_goto h (fun _ _ => rfl) (fun _ _ => rfl) trivial
  | insert_to_queue => exact progress_goto h (fun _ _ => rfl) (fun t ht => decide_eq_false ht) trivial

theorem progress_run {buffers : Nat → List Byte} (h : (server w).Run (start buffers) evs s) :
    ∀ t, Progress t evs (s.threads t) := by
  induction h with
  | nil => exact fun t => ⟨rfl, rfl⟩
  | snoc hr hs ih => exact progress_step (reachable_inv (hr.reachable (.init ⟨_, rfl⟩))) ih hs

/-- In a session that ends with the client's close no `recv` fails. -/
theorem Follows.none_not_mem {msgs : List (List Byte)} (h : Follows msgs t evs) : none ∉ reads t evs := by
  obtain ⟨n, hn⟩ := h
  intro hm
  obtain ⟨m, -, he⟩ := List.mem_map.1 (hn.subset hm)
  cases he

/-- In such a session the thread never returns, and what it reads it enqueues. -/
theorem never_returns {buffers : Nat → List Byte} {msgs : List (List Byte)} {caps : capsula} {pc : ListenPc}
    (h : (server w).Run (start buffers) evs s) (ht : s.threads t = some (.listenAO caps pc)) (hf : Follows msgs t evs) :
    pc ≠ .returned ∧ (reads t evs).length ≤ enqueues t evs + 1 := by
  have hp := progress_run h t
  rw [ht] at hp
  cases pc with
  | recv => exact ⟨by simp, by rw [hp.2]; exact Nat.le_succ _⟩
  | enQ capsul => exact ⟨by simp, Nat.le_of_eq hp.2.symm⟩
  | returned => exact absurd hp hf.none_not_mem

/-! ## Reads without end -/

/-- A read, and the `enQ` of what was read. -/
theorem read_once (hr : (server w).Reachable s) {caps : capsula} (ht : s.threads t = some (.listenAO caps .recv))
    {data : List Byte} (hd : data.length ≤ 1024) :
    ∃ evs s', (server w).Run s evs s' ∧ s'.threads t = some (.listenAO caps .recv) ∧
      reads t evs = [some data] ∧ enqueues t evs = 1 := by
  obtain ⟨q, hq⟩ : ∃ q, caps.q_send = some q := by
    cases (reachable_inv hr).wired t _ ht with
    | listenAO => exact ⟨_, rfl⟩
  obtain ⟨junk, hj⟩ : ∃ junk : List Byte, junk.length = 1024 := ⟨_, List.length_replicate (a := NUL)⟩
  have hrecv := Step.recv ht hj hd
  obtain ⟨xs, hx⟩ := (reachable_inv hr).holds q
  obtain ⟨a, q', ha, henq⟩ := hx.exists_enQ ⟨caps.q, some s.nbuffers, caps.socket, none⟩
  have r := (Machine.Run.nil (M := server w) s).snoc hrecv
  have r := r.snoc (Step.listen_enQ (t := t) (Function.update_self ..) hq ha henq)
  exact ⟨_, _, r, by simp [State.goto, State.setQ], by simp [reads, Event.read], by simp [enqueues, Event.enqueues]⟩

/-- As many reads as one likes, each enqueued. -/
theorem read_all (hr : (server w).Reachable s) {caps : capsula} (ht : s.threads t = some (.listenAO caps .recv))
    {datas : List (List Byte)} (hd : ∀ data ∈ datas, data.length ≤ 1024) :
    ∃ evs s', (server w).Run s evs s' ∧ s'.threads t = some (.listenAO caps .recv) ∧
      reads t evs = datas.map some ∧ enqueues t evs = datas.length := by
  induction datas generalizing s with
  | nil => exact ⟨[], s, .nil s, ht, rfl, rfl⟩
  | cons data datas ih =>
    obtain ⟨evs, s', r, ht', hreads, henq⟩ := read_once hr ht (hd data (by simp))
    obtain ⟨evs', s'', r', ht'', hreads', henq'⟩ := ih (r.reachable hr) ht' fun d h => hd d (by simp [h])
    refine ⟨evs ++ evs', s'', r.append r', ht'', ?_, ?_⟩
    · rw [reads_append, hreads, hreads']; rfl
    · rw [enqueues_append, henq, henq', List.length_cons, Nat.add_comm]

/-- A first client, on descriptor 4, and its listener. -/
theorem first_listener (buffers : Nat → List Byte) : ∃ s : State w,
    (server w).Run (start buffers) [.accept (some 4), .create] s ∧
      s.threads 0 = some (.listenAO ⟨1, none, 4, some 0⟩ .recv) := by
  have r := (Machine.Run.nil (M := server w) (start buffers)).snoc (@Step.accept _ _ 4 rfl (by simp [start]))
  exact ⟨_, r.snoc (Step.new_listenAO rfl), rfl⟩

/-- A session's messages and any number of reads of 0, each with its capsula. -/
theorem floods {msgs : List (List Byte)} (hm : ∀ m ∈ msgs, m.length ≤ 1024) (n : Nat) :
    ∃ buffers evs, ∃ s : State w, ∃ t caps, (server w).Run (start buffers) evs s ∧
      s.threads t = some (.listenAO caps .recv) ∧ Follows msgs t evs ∧ enqueues t evs = msgs.length + n ∧
      (reads t evs).length = msgs.length + n := by
  obtain ⟨s, r, ht⟩ := first_listener (w := w) fun _ => []
  have hall : ∀ data ∈ msgs ++ List.replicate n [], data.length ≤ 1024 := fun data hd => by
    rcases List.mem_append.1 hd with hd | hd
    · exact hm data hd
    · rw [List.eq_of_mem_replicate hd]; exact Nat.zero_le _
  obtain ⟨evs, s', r', ht', hreads, henq⟩ := read_all (r.reachable (.init ⟨_, rfl⟩)) ht hall
  refine ⟨_, _, s', 0, _, r.append r', ht', ⟨n, ?_⟩, ?_, ?_⟩
  · rw [reads_append, hreads]; exact List.prefix_rfl
  · rw [enqueues_append, henq]; simp [enqueues, Event.enqueues]
  · rw [reads_append, hreads]; simp [reads, Event.read]

/-- Once the client has closed there is more than the messages in the queue. -/
theorem not_ends {msgs : List (List Byte)} (hm : ∀ m ∈ msgs, m.length ≤ 1024) : ¬ Ends w msgs := by
  intro h
  obtain ⟨buffers, evs, s, t, caps, r, ht, hf, henq, hreads⟩ := floods (w := w) hm 1
  have hle := (h buffers evs s t caps .recv r ht hf (by omega)).1
  omega

/-- A listener whose client closes does not end: in no run of such a session has
it returned, it enqueues what it reads, and the reads of 0 go on without end. -/
theorem listener_never_ends (w : Nat) {msgs : List (List Byte)} (hm : ∀ m ∈ msgs, m ≠ [] ∧ m.length ≤ 1024) :
    ¬ Ends w msgs ∧
    (∀ buffers evs (s : State w) t caps pc, (server w).Run (start buffers) evs s →
      s.threads t = some (.listenAO caps pc) → Follows msgs t evs →
      pc ≠ .returned ∧ (reads t evs).length ≤ enqueues t evs + 1) ∧
    ∀ n, ∃ buffers evs, ∃ s : State w, ∃ t caps, (server w).Run (start buffers) evs s ∧
      s.threads t = some (.listenAO caps .recv) ∧ Follows msgs t evs ∧ enqueues t evs = msgs.length + n := by
  have hlen : ∀ m ∈ msgs, m.length ≤ 1024 := fun m h => (hm m h).2
  refine ⟨not_ends hlen, fun buffers evs s t caps pc r ht hf => never_returns r ht hf, fun n => ?_⟩
  obtain ⟨buffers, evs, s, t, caps, r, ht, hf, henq, -⟩ := floods (w := w) hlen n
  exact ⟨buffers, evs, s, t, caps, r, ht, hf, henq⟩

/-- "a", and then the client closes. -/
theorem listener_never_ends_a : ¬ Ends 64 [[97#8, NUL]] := (listener_never_ends 64 (by simp)).1

theorem not_ends_a : ¬ ∀ msgs : List (List Byte), (∀ m ∈ msgs, m ≠ [] ∧ m.length ≤ 1024) → Ends 64 msgs := by
  intro h
  exact not_ends (by simp) (h [[97#8, NUL]] (by simp))

end Ex6.Pipeline
