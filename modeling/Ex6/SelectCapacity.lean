import Ex6.SelectSafety
import Mathlib.Data.Finset.Card
/-!
# How many clients the select server has room for

The kernel gives out the lowest descriptor that is not open, and takes back what is
closed. So the handler table overflows when a client comes who finds all of it in use,
however many have come and gone before: `clients_at_once`. With the three standard
descriptors that is the sixty-first at once.
-/
open Lib

namespace Ex6.SelectServer

/-- The descriptor of a connection. -/
def connected : Option Desc → Bool
  | some (.conn _) => true
  | _ => false

/-- The descriptors of the clients there are, within the table. -/
def State.clients (s : State) : Finset Nat := (Finset.range MAX_FDS).filter fun fd => connected (s.table fd)

/-- The descriptor that is given out is the lowest. -/
def Lowest (s : State) : Event → Prop
  | .boot fd | .accept (some fd) => ∀ k < fd, s.table k ≠ none
  | _ => True

/-- There is room for a client: files, listener and clients do not take up the table. -/
def Room (files : Nat) (s : State) : Event → Prop
  | .accept (some _) => files + 1 + s.clients.card < MAX_FDS
  | _ => True

/-- The first descriptors are files, the next is the listener. -/
structure Holding (files : Nat) (s : State) : Prop where
  inv : Inv s
  file : ∀ fd, s.table fd = some .file ↔ fd < files
  listener : s.listener = files

variable {s s' : State} {e : Event} {files : Nat}

/-- No step touches a file, or moves the listener. -/
theorem files_step (hi : Inv s) (hs : Step s e s') (he : e.InRange) :
    (∀ fd, s'.table fd = some .file ↔ s.table fd = some .file) ∧ s'.listener = s.listener := by
  cases hs with
  | boot hc => exact absurd hc hi.started
  | select | select_fails | skip | mismatch | done => exact ⟨fun fd => Iff.rfl, rfl⟩
  | @accept i r st newfd ht _ _ hacc =>
    cases newfd with
    | none => exact ⟨fun fd => Iff.rfl, rfl⟩
    | some newfd =>
      obtain ⟨-, hfree⟩ := hacc newfd rfl
      obtain ⟨reac, hs', -⟩ := accept_connection_spec (s.called i r) (he newfd rfl)
      rw [hs']
      refine ⟨fun fd => ?_, rfl⟩
      by_cases hfd : fd = newfd
      · subst hfd
        simp [State.open_conn, hfree]
      · simp only [State.open_conn, Function.update_of_ne hfd]
        exact Iff.rfl
  | @recv i r st data sent ht _ hst _ =>
    obtain ⟨hne, hi'⟩ : i ≠ s.listener ∧ st.fd = i := by
      unfold State.arg at hst
      split at hst
      · cases hst
      · next hne =>
        cases hst
        exact ⟨hne, rfl⟩
    have hm := ((hi.round i r ht.ctl).pending i ht.ready (Nat.le_refl i)).1
    obtain ⟨c, hc⟩ := ((hi.descriptors.fds i).1 hm).resolve_left hne
    rcases handle_client_data_cases (s.called i r) st data sent with ⟨-, hs'⟩ | ⟨bytes, -, -, hs'⟩ <;> rw [hs']
    · refine ⟨fun fd => ?_, rfl⟩
      simp only [table_close, hi']
      refine ⟨fun hfd => hfd.2, fun hfd => ⟨?_, hfd⟩⟩
      rintro rfl
      rw [hc] at hfd
      cases hfd
    · exact ⟨fun fd => Iff.rfl, rfl⟩

theorem Holding.step (h : Holding files s) (hs : Step s e s') (he : e.InRange) : Holding files s' := by
  obtain ⟨hfile, hlistener⟩ := files_step h.inv hs he
  exact ⟨inv_step h.inv hs he, fun fd => (hfile fd).trans (h.file fd), hlistener.trans h.listener⟩

theorem mem_clients {fd : Nat} : fd ∈ s.clients ↔ fd < MAX_FDS ∧ ∃ c, s.table fd = some (.conn c) := by
  unfold State.clients
  rw [Finset.mem_filter, Finset.mem_range]
  refine and_congr_right fun _ => ?_
  unfold connected
  split
  · next c heq => exact ⟨fun _ => ⟨c, heq⟩, fun _ => rfl⟩
  · next hne => exact ⟨fun h => absurd h Bool.false_ne_true, fun ⟨c, hc⟩ => absurd hc (hne c)⟩

/-- What is open is a file, the listener or a client. -/
theorem Holding.open_iff (h : Holding files s) {fd : Nat} (hlt : fd < MAX_FDS) :
    s.table fd ≠ none ↔ fd < files + 1 ∨ fd ∈ s.clients := by
  rw [mem_clients]
  have hl := h.inv.descriptors.listening fd
  rw [h.listener] at hl
  have hf := h.file fd
  constructor
  · intro hopen
    obtain ⟨d, hd⟩ := Option.ne_none_iff_exists'.1 hopen
    cases d with
    | file => exact .inl (Nat.lt_succ_of_lt (hf.1 hd))
    | listening => exact .inl (Nat.lt_succ_of_le (Nat.le_of_eq (hl.1 hd)))
    | conn c => exact .inr ⟨hlt, c, hd⟩
  · rintro (hle | ⟨-, c, hc⟩)
    · rcases Nat.lt_or_eq_of_le (Nat.le_of_lt_succ hle) with hlt' | heq
      · rw [hf.2 hlt']
        simp
      · rw [hl.2 heq]
        simp
    · rw [hc]
      simp

/-- The lowest descriptor that is not open is within the table if not all of that is in
use. -/
theorem Holding.lt_iff (h : Holding files s) (hfiles : files < MAX_FDS) {newfd : Nat} (hfree : s.table newfd = none)
    (hlow : ∀ k < newfd, s.table k ≠ none) : newfd < MAX_FDS ↔ files + 1 + s.clients.card < MAX_FDS := by
  have hdisjoint : Disjoint (Finset.range (files + 1)) s.clients := by
    rw [Finset.disjoint_left]
    intro fd hfd hc
    obtain ⟨-, c, hc⟩ := mem_clients.1 hc
    rcases Nat.lt_or_eq_of_le (Nat.le_of_lt_succ (Finset.mem_range.1 hfd)) with hlt | heq
    · rw [(h.file fd).2 hlt] at hc
      cases hc
    · rw [(h.inv.descriptors.listening fd).2 (heq.trans h.listener.symm)] at hc
      cases hc
  have hcard : (Finset.range (files + 1) ∪ s.clients).card = files + 1 + s.clients.card := by
    rw [Finset.card_union_of_disjoint hdisjoint, Finset.card_range]
  constructor
  · intro hlt
    have hsub : Finset.range (files + 1) ∪ s.clients ⊆ (Finset.range MAX_FDS).erase newfd := by
      intro fd hfd
      have hfd' : fd < files + 1 ∨ fd ∈ s.clients := by simpa using hfd
      have hlt' : fd < MAX_FDS := hfd'.elim (fun hle => by omega) fun hc => (mem_clients.1 hc).1
      refine Finset.mem_erase.2 ⟨?_, Finset.mem_range.2 hlt'⟩
      rintro rfl
      exact (h.open_iff hlt').2 hfd' hfree
    have hle := Finset.card_le_card hsub
    rw [hcard, Finset.card_erase_of_mem (Finset.mem_range.2 hlt), Finset.card_range] at hle
    simp only [MAX_FDS] at hle ⊢
    omega
  · intro hroom
    by_contra hge
    have hsub : Finset.range MAX_FDS ⊆ Finset.range (files + 1) ∪ s.clients := by
      intro fd hfd
      have hlt := Finset.mem_range.1 hfd
      rcases (h.open_iff hlt).1 (hlow fd (by omega)) with hle | hc
      · exact Finset.mem_union_left _ (Finset.mem_range.2 hle)
      · exact Finset.mem_union_right _ hc
    have hle := Finset.card_le_card hsub
    rw [hcard, Finset.card_range] at hle
    omega

/-! ## A run -/

theorem boot_table (s : State) (fd : Nat) : (boot s fd).table = Function.update s.table fd (some .listening) ∧
    (boot s fd).listener = fd := by
  unfold boot
  dsimp only
  split <;> exact ⟨rfl, rfl⟩

/-- The listener is the lowest descriptor that is not a file. -/
theorem Holding.boot (h : AtBoot s) (htable : ∀ fd, s.table fd = none ↔ files ≤ fd) (hfiles : files < MAX_FDS)
    {listener : Nat} (hfree : s.table listener = none) (hlow : ∀ k < listener, s.table k ≠ none) :
    Holding files (SelectServer.boot s listener) := by
  obtain rfl : listener = files := by
    have hle := (htable listener).1 hfree
    by_contra hne
    exact hlow files (by omega) ((htable files).2 (Nat.le_refl _))
  refine ⟨inv_boot h hfiles, fun fd => ?_, (boot_table s listener).2⟩
  rw [(boot_table s listener).1]
  by_cases hfd : fd = listener
  · subst hfd
    simp
  · rw [Function.update_of_ne hfd]
    constructor
    · intro hfile
      by_contra hge
      rw [(htable fd).2 (Nat.le_of_not_lt hge)] at hfile
      cases hfile
    · intro hlt
      obtain ⟨d, hd⟩ := Option.ne_none_iff_exists'.1 fun hnone => absurd ((htable fd).1 hnone) (Nat.not_le.2 hlt)
      rw [hd, h.table fd d hd]

/-- A server that has not started, or one that has room for what it holds. -/
def Held (files : Nat) (s : State) : Prop :=
  (AtBoot s ∧ ∀ fd, s.table fd = none ↔ files ≤ fd) ∨ Holding files s

theorem Held.defined (h : Held files s) : s.ctl ≠ .undefined := by
  rcases h with ⟨hb, -⟩ | hh
  · rw [hb.ctl]
    simp
  · exact hh.inv.defined

/-- A step keeps what the server holds, but for a client too many. -/
theorem held_step (h : Held files s) (hfiles : files < MAX_FDS) (hs : Step s e s') (hlow : Lowest s e) :
    (Room files s e ∧ Held files s') ∨ (¬ Room files s e ∧ s'.ctl = .undefined) := by
  rcases h with ⟨hb, htable⟩ | hh
  · cases hs with
    | boot _ hfree => exact .inl ⟨trivial, .inr (Holding.boot hb htable hfiles hfree hlow)⟩
    | select hc | select_fails hc | skip hc | done hc => rw [hb.ctl] at hc; cases hc
    | accept ht | recv ht | mismatch ht => have hc := ht.ctl; rw [hb.ctl] at hc; cases hc
  · cases e with
    | boot listener =>
      cases hs with
      | boot hc => exact absurd hc hh.inv.started
    | accept newfd =>
      cases newfd with
      | none => exact .inl ⟨trivial, .inr (hh.step hs (by rintro fd ⟨⟩))⟩
      | some newfd =>
        have hfree : s.table newfd = none := by
          cases hs with
          | accept _ _ _ hacc => exact (hacc newfd rfl).2
        by_cases hlt : newfd < MAX_FDS
        · exact .inl ⟨(hh.lt_iff hfiles hfree hlow).1 hlt, .inr (hh.step hs (by rintro fd ⟨⟩; exact hlt))⟩
        · refine .inr ⟨fun hroom => hlt ((hh.lt_iff hfiles hfree hlow).2 hroom), ?_⟩
          cases hs with
          | accept => rw [accept_connection_overflow _ hlt]
    | select | select_fails | skip | recv | mismatch | done =>
      exact .inl ⟨trivial, .inr (hh.step hs (by rintro fd ⟨⟩))⟩

theorem stuck (h : s.ctl = .undefined) : ¬ Step s e s' := by
  intro hs
  cases hs with
  | boot hc | select hc | select_fails hc | skip hc | done hc => rw [h] at hc; cases hc
  | accept ht | recv ht | mismatch ht => have hc := ht.ctl; rw [h] at hc; cases hc

/-- Where the kernel gives out the lowest free descriptor, and the first `files` were
open at the start, the server stays within its handler table, and calls no null or other
handler, exactly as long as no client comes while files, listener and clients take up
the whole table. -/
theorem clients_at_once {s0 : State} (h0 : AtBoot s0) (htable : ∀ fd, s0.table fd = none ↔ files ≤ fd)
    (hfiles : files < MAX_FDS) {evs : List Event} (h : ((server AtBoot).meeting Lowest).Run s0 evs s) :
    s.ctl ≠ .undefined ↔ (((server AtBoot).meeting Lowest).meeting (Room files)).Run s0 evs s := by
  constructor
  · have hor : (((server AtBoot).meeting Lowest).meeting (Room files)).Run s0 evs s ∧ Held files s ∨
        s.ctl = .undefined := by
      induction h with
      | nil => exact .inl ⟨.nil _, .inl ⟨h0, htable⟩⟩
      | snoc _ hs ih =>
        rcases ih with ⟨hrun, hheld⟩ | hundefined
        · rcases held_step hheld hfiles hs.1 hs.2 with ⟨hroom, hheld'⟩ | ⟨-, hundefined'⟩
          · exact .inl ⟨hrun.snoc ⟨hs, hroom⟩, hheld'⟩
          · exact .inr hundefined'
        · exact absurd hs.1 (stuck hundefined)
    intro hdefined
    exact (hor.resolve_right hdefined).1
  · intro hrun
    have hheld : Held files s := by
      apply hrun.keeps (P := Held files) _ (.inl ⟨h0, htable⟩)
      rintro t e u ht ⟨⟨hs, hlow⟩, hroom⟩
      exact ((held_step ht hfiles hs hlow).resolve_right fun hno => hno.1 hroom).2
    exact hheld.defined

/-- The three standard descriptors, the listener and a first client. -/
theorem clients_at_once_first : ∃ evs s, (((server AtBoot).meeting Lowest).meeting (Room 3)).Run stdio evs s ∧
    s.clients.card = 1 := by
  have htable : ∀ fd, stdio.table fd = none ↔ 3 ≤ fd := by
    intro fd
    change (if fd < 3 then some Desc.file else none) = none ↔ 3 ≤ fd
    split <;> simp <;> omega
  have hstdio : ∀ k < 3, stdio.table k ≠ none := by decide
  have hopen : ∀ k < 4, (boot stdio 3).table k ≠ none := by decide
  have r := (Machine.Run.nil (M := (server AtBoot).meeting Lowest) stdio).snoc ⟨@Step.boot _ 3 rfl rfl, hstdio⟩
  have r := r.snoc ⟨@Step.select _ {3} rfl (by decide), trivial⟩
  have r := r.snoc ⟨Step.skip rfl (by decide) (by decide), trivial⟩
  have r := r.snoc ⟨Step.skip rfl (by decide) (by decide), trivial⟩
  have r := r.snoc ⟨Step.skip rfl (by decide) (by decide), trivial⟩
  have r := r.snoc ⟨@Step.accept _ _ _ _ (some 4) ⟨rfl, by decide, by decide⟩ rfl rfl
    (fun fd h => by cases h; exact ⟨rfl, rfl⟩), hopen⟩
  refine ⟨_, _, (clients_at_once stdio_atBoot htable (by decide) r).1 ?_, by decide⟩
  change Ctl.scan 4 _ ≠ Ctl.undefined
  simp

end Ex6.SelectServer
