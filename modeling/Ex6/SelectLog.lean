import Ex6.SelectMessages
/-!
# The select server's log

`handle_client_data` shows what it has received as a string, out of a buffer
that all clients share and that nothing terminates. `log_iff` compares two runs
that end with the same chunk and says when they show the same text.
-/
open Lib Lib.CString

namespace Ex6.SelectServer

/-- What `%s` shows of a buffer. Undefined without a terminator, as the scan then
goes on past the end. -/
def shown (buf : List Byte) : Option (List Byte) := (strlen NUL buf).map buf.take

variable {s s' t t' : State} {e : Event} {fd : Nat} {chunk buf : List Byte}

/-! ## One buffer -/

theorem shown_eq (h : NUL ∈ buf) : shown buf = some (cstr NUL buf) := by
  unfold shown
  rw [strlen_eq_some NUL h, Option.map_some, take_cstr]

/-- What is shown of a chunk, received over what the buffer held, is part of the
chunk only if a terminator comes in the chunk or right behind it. -/
theorem shown_overwrite (hlt : NUL ∈ chunk ∨ buf[chunk.length]? = some NUL) :
    shown (overwrite buf chunk) = some (cstr NUL chunk) := by
  by_cases hz : NUL ∈ chunk
  · rw [shown_eq (mem_overwrite NUL hz), cstr_overwrite NUL hz]
  · have hbuf := hlt.resolve_left hz
    obtain ⟨hlen, hget⟩ := List.getElem?_eq_some_iff.1 hbuf
    have hdrop : overwrite buf chunk = chunk ++ NUL :: buf.drop (chunk.length + 1) := by
      rw [overwrite, List.drop_eq_getElem_cons hlen, hget]
    rw [hdrop, shown_eq (by simp), cstr_append_cons NUL hz, cstr_eq_self NUL hz]

theorem of_shown_overwrite {text : List Byte} (h : shown (overwrite buf chunk) = some text) (hpre : text <+: chunk) :
    NUL ∈ chunk ∨ buf[chunk.length]? = some NUL := by
  by_cases hz : NUL ∈ chunk
  · exact .inl hz
  · right
    obtain ⟨n, hn, rfl⟩ := Option.map_eq_some_iff.1 h
    obtain ⟨hmem, rfl⟩ := (strlen_some_iff NUL).1 hn
    obtain ⟨rest, hr⟩ := split_of_mem NUL hmem
    rw [take_cstr] at hpre
    -- the string shown is the chunk itself, so the terminator is the next byte
    have hcut : cstr NUL (overwrite buf chunk) = chunk ++ cstr NUL (buf.drop chunk.length) :=
      cstr_append_left NUL hz _
    have hnil : cstr NUL (buf.drop chunk.length) = [] := by
      rw [hcut] at hpre
      have := hpre.length_le
      rw [List.length_append] at this
      exact List.length_eq_zero_iff.1 (by omega)
    rw [hcut, hnil, List.append_nil] at hr
    have hdrop : buf.drop chunk.length = NUL :: rest := List.append_cancel_left hr
    rw [← List.head?_drop, hdrop]
    rfl

/-! ## Runs -/

/-- `main` has not changed the size of its buffer. -/
structure Sized (s : State) : Prop where
  buf : s.buf.length = 256
  buffersize : s.rd_st.buffersize = 256

theorem buf_boot (s : State) (listener : Nat) : (boot s listener).buf = s.buf := by
  simp only [boot]
  split <;> rfl

theorem buf_accept (s : State) (newfd : Option Nat) : (accept_connection s newfd).buf = s.buf := by
  cases newfd with
  | none => rfl
  | some fd =>
    simp only [accept_connection]
    split <;> rfl

theorem sized_step (h : Sized s) (hs : Step s e t) : Sized t := by
  refine ⟨?_, (buffersize_step hs).trans h.buffersize⟩
  cases hs with
  | boot => rw [buf_boot]; exact h.buf
  | accept => rw [buf_accept]; exact h.buf
  | @recv i r st data sent _ _ ha hlen =>
    obtain ⟨rfl, -⟩ := arg_rd_st ha
    rcases handle_client_data_cases (s.called i r) { s.rd_st with fd := i } data sent with
      ⟨-, he⟩ | ⟨bytes, hbytes, -, he⟩ <;> rw [he]
    · exact h.buf
    · have hle := hlen bytes hbytes
      have hbuf : (s.called i r).buf.length = 256 := h.buf
      simp only [h.buffersize] at hle
      simp only [overwrite, List.length_append, List.length_drop, hbuf]
      omega
  | _ => exact h.buf

theorem sized (h : (server AtBoot).Reachable s) : Sized s :=
  h.inv (M := server AtBoot) (fun _ h0 => ⟨h0.buf, h0.buffersize⟩) fun _ _ _ => sized_step

/-- A run, from `main`'s start on, that ends with `chunk` received from `fd`. -/
structure Received (fd : Nat) (chunk : List Byte) (s t : State) : Prop where
  before : (server AtBoot).Reachable s
  fd : ∃ r, s.ctl = .scan fd r
  step : ∃ sent, Step s (.recv (some chunk) sent) t

theorem Received.overwritten (h : Received fd chunk s t) (hne : chunk ≠ []) : t.buf = overwrite s.buf chunk := by
  obtain ⟨sent, hs⟩ := h.step
  cases hs with
  | @recv i r st _ _ =>
    rcases handle_client_data_cases (s.called i r) st (some chunk) sent with ⟨hnil, -⟩ | ⟨bytes, hb, -, he⟩
    · exact absurd hnil hne
    · obtain rfl := Option.some.inj hb
      rw [he]
      rfl

/-- What a reader of the log may expect: the text shown for the chunk is the same in
both runs, it is part of the chunk, and the scan for its end stays in the buffer. -/
def LoggedAlone (chunk : List Byte) (t t' : State) : Prop :=
  ∃ text, shown t.buf = some text ∧ shown t'.buf = some text ∧ text <+: chunk ∧
    text.length < t.buf.length ∧ text.length < t'.buf.length ∧ t.buf.length = 256 ∧ t'.buf.length = 256

theorem shown_length_lt {text : List Byte} (h : shown buf = some text) : text.length < buf.length := by
  obtain ⟨n, hn, rfl⟩ := Option.map_eq_some_iff.1 h
  obtain ⟨hmem, rfl⟩ := (strlen_some_iff NUL).1 hn
  have := cstr_length_lt NUL hmem
  rw [List.length_take]
  omega

/-- The log shows the chunk alone if and only if a NUL comes in it, or both buffers
happened to hold one right behind it. -/
theorem log_iff (hne : chunk ≠ []) (h : Received fd chunk s t) (h' : Received fd chunk s' t') :
    LoggedAlone chunk t t' ↔
      NUL ∈ chunk ∨ (s.buf[chunk.length]? = some NUL ∧ s'.buf[chunk.length]? = some NUL) := by
  have hbuf := h.overwritten hne
  have hbuf' := h'.overwritten hne
  obtain ⟨sent, hs⟩ := h.step
  obtain ⟨sent', hs'⟩ := h'.step
  have hsize := (sized_step (sized h.before) hs).buf
  have hsize' := (sized_step (sized h'.before) hs').buf
  constructor
  · rintro ⟨text, ht, ht', hpre, -⟩
    rw [hbuf] at ht
    rw [hbuf'] at ht'
    rcases of_shown_overwrite ht hpre with hz | hz
    · exact .inl hz
    · rcases of_shown_overwrite ht' hpre with hz' | hz'
      · exact .inl hz'
      · exact .inr ⟨hz, hz'⟩
  · intro hz
    have ht : shown t.buf = some (cstr NUL chunk) := by
      rw [hbuf]
      exact shown_overwrite (hz.imp_right And.left)
    have ht' : shown t'.buf = some (cstr NUL chunk) := by
      rw [hbuf']
      exact shown_overwrite (hz.imp_right And.right)
    exact ⟨_, ht, ht', List.takeWhile_prefix _, shown_length_lt ht, shown_length_lt ht', hsize, hsize'⟩

/-- Where the walk of the master set is. -/
def Ctl.index : Ctl → Option Nat
  | .scan i _ => some i
  | _ => none

theorem received_of_exec {evs : List Event} {sent : Nat → Nat} {P : State → Prop} [DecidablePred P] (h0 : AtBoot s)
    (h : (exec s evs).any (fun u => decide (u.ctl.index = some fd ∧ (next u (.recv (some chunk) sent)).isSome ∧ P u))) :
    ∃ u v, Received fd chunk u v ∧ P u := by
  obtain ⟨u, hr, hindex, hnext, hp⟩ := @run_of_exec _ _ AtBoot _ _ h
  obtain ⟨v, hv⟩ := step_of_next hnext
  refine ⟨u, v, ⟨hr.reachable (.init h0), ?_, sent, hv⟩, hp⟩
  cases hc : u.ctl with
  | scan i r =>
    rw [hc] at hindex
    exact ⟨r, by rw [Option.some.inj hindex]⟩
  | _ => rw [hc] at hindex; cases hindex

/-- The client on descriptor 5 says "xyz". -/
def gossip : List Event :=
  [.select {5}, .skip, .skip, .skip, .skip, .skip, .recv (some [120#8, 121#8, 122#8]) (fun _ => 3), .done]

/-- The server comes to the client on descriptor 4. -/
def reaches : List Event := [.select {4}, .skip, .skip, .skip, .skip]

theorem log_iff_hi : ∃ t t', LoggedAlone [104#8, 105#8, NUL] t t' := by
  obtain ⟨s, t, h, -⟩ := @received_of_exec stdio 4 [104#8, 105#8, NUL] (.boot 3 :: arrivals ++ gossip ++ reaches)
    (fun _ => 3) (fun _ => True) _ stdio_atBoot (by decide)
  obtain ⟨s', t', h', -⟩ := @received_of_exec stdio 4 [104#8, 105#8, NUL] (.boot 3 :: arrivals ++ reaches)
    (fun _ => 3) (fun _ => True) _ stdio_atBoot (by decide)
  exact ⟨t, t', (log_iff (by simp) h h').2 (.inl (by simp))⟩

/-- "hi" without a terminator is shown as "hiz" if "xyz" came before it. -/
theorem log_of_others : ¬ ∀ (fd : Nat) (chunk : List Byte) (s s' t t' : State), chunk ≠ [] →
    Received fd chunk s t → Received fd chunk s' t' → LoggedAlone chunk t t' := by
  intro h
  obtain ⟨s, t, hr, hs⟩ := @received_of_exec stdio 4 [104#8, 105#8] (.boot 3 :: arrivals ++ gossip ++ reaches)
    (fun _ => 2) (fun u => u.buf[2]? = some 122#8) _ stdio_atBoot (by decide)
  obtain ⟨s', t', hr', -⟩ := @received_of_exec stdio 4 [104#8, 105#8] (.boot 3 :: arrivals ++ reaches)
    (fun _ => 2) (fun _ => True) _ stdio_atBoot (by decide)
  obtain ⟨text, ht, -, hpre, -⟩ := h 4 [104#8, 105#8] s s' t t' (by simp) hr hr'
  rw [hr.overwritten (by simp)] at ht
  rcases of_shown_overwrite ht hpre with hz | hz
  · exact absurd hz (by decide)
  · rw [show s.buf[[104#8, 105#8].length]? = some 122#8 from hs] at hz
    cases hz

end Ex6.SelectServer
