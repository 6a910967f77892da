import Mathlib.Algebra.Order.BigOperators.Group.List
import Mathlib.Algebra.Order.Ring.Nat
import Ex6.PipelineMessages
/-!
# Messages and reads

A client sends its messages one after the other, each with its terminator.
`listenAO` makes a capsula of whatever one `recv` returns. `answers` is what
comes back for a sequence of reads. It is what should come back for the
messages exactly if the reads were the messages.
-/
open Lib Lib.CString Ex6.Text

namespace Ex6.Framing

/-- What is sent for buffers with contents `r.1` into which `r.2` is received. -/
def answers : List (List Byte × List Byte) → Option (List Byte)
  | [] => some []
  | r :: reads => do
    let a ← respond (overwrite r.1 r.2)
    let as ← answers reads
    return a ++ as

variable {reads : List (List Byte × List Byte)} {ms cuts junks : List (List Byte)}

theorem answers_of_terminated (h : ∀ r ∈ reads, NUL ∈ r.2) :
    answers reads = some (reads.flatMap fun r => reply (cstr NUL r.2)) := by
  induction reads with
  | nil => rfl
  | cons r reads ih =>
    simp [answers, respond_overwrite (h r (by simp)), ih fun r' hr => h r' (by simp [hr])]

/-- Every buffer must have a terminator, from the client or from before. -/
theorem mem_of_answers {bytes : List Byte} (h : answers reads = some bytes) : ∀ r ∈ reads, NUL ∈ overwrite r.1 r.2 := by
  induction reads generalizing bytes with
  | nil => simp
  | cons r reads ih =>
    simp only [answers, Option.bind_eq_bind, Option.bind_eq_some_iff] at h
    obtain ⟨a, ha, as, has, -⟩ := h
    intro r' hr
    rcases List.mem_cons.1 hr with rfl | hr
    · by_contra hn
      rw [respond_eq_none hn] at ha; cases ha
    · exact ih has r' hr

/-- What the active-object server has sent on a connection, once nothing is on its
way there. -/
theorem sent_answers {w : Nat} {s : Pipeline.State w} (h : (Pipeline.server w).Reachable s) {c fd : Nat}
    (hc : s.conns[c]? = some fd) (hd : s.contents c = []) : answers (s.received fd) = some (s.sent fd).flatten := by
  have hs := Pipeline.sent_of_drained h hc hd
  generalize s.received fd = reads at hs
  generalize s.sent fd = sent at hs
  induction reads generalizing sent with
  | nil =>
    rw [List.map_nil, List.map_eq_nil_iff] at hs
    rw [hs]
    rfl
  | cons r reads ih =>
    cases sent with
    | nil => cases hs
    | cons bytes sent =>
      simp only [List.map_cons, List.cons.injEq] at hs
      simp [answers, ← hs.1, ih sent hs.2]

/-! ## One message, one read -/

/-- A terminated read is at least as long as its string and a terminator, and no
longer only if it is that. -/
theorem eq_of_length_le {d : List Byte} (h : NUL ∈ d) (hl : d.length ≤ (cstr NUL d).length + 1) :
    d = cstr NUL d ++ [NUL] := by
  obtain ⟨rest, hr⟩ := split_of_mem NUL h
  have hlen := congrArg List.length hr
  simp only [List.length_append, List.length_cons] at hlen
  have hnil : rest = [] := List.eq_nil_iff_length_eq_zero.2 (by omega)
  rwa [hnil] at hr

/-- Terminated reads that are answered with as many bytes as the messages deserve
are the messages. -/
theorem reads_eq (hm : ∀ m ∈ ms, NUL ∉ m) (hs : cuts.flatten = stream NUL ms) (hz : ∀ d ∈ cuts, NUL ∈ d)
    (hl : (cuts.flatMap fun d => reply (cstr NUL d)).length = (ms.flatMap reply).length) :
    cuts = ms.map (· ++ [NUL]) := by
  have hle : ∀ d ∈ cuts, (cstr NUL d).length + 1 ≤ d.length := fun d hd => cstr_length_lt NUL (hz d hd)
  have hsum : (cuts.map fun d => (cstr NUL d).length + 1).sum = (cuts.map List.length).sum := by
    have hbytes := congrArg List.length hs
    simp only [List.length_flatten, List.length_flatMap, length_reply, stream, List.length_append,
      List.length_singleton] at hl hbytes
    rw [hl, hbytes]
  have heq : ∀ d ∈ cuts, d = cstr NUL d ++ [NUL] := by
    intro d hd
    apply eq_of_length_le (hz d hd)
    by_contra hlt
    exact absurd hsum (List.sum_lt_sum _ _ hle ⟨d, hd, by omega⟩).ne
  have hcuts : cuts = (cuts.map (cstr NUL)).map (· ++ [NUL]) := by
    rw [List.map_map]
    conv => lhs; rw [← List.map_id cuts]
    exact List.map_congr_left heq
  have hms : cuts.map (cstr NUL) = ms := by
    apply stream_injective NUL
    · intro m hm'
      obtain ⟨d, -, rfl⟩ := List.mem_map.1 hm'
      exact not_mem_cstr NUL d
    · exact hm
    · rw [← hs, stream, List.flatMap_def, ← hcuts]
  rw [hcuts, hms]

/-- Whatever the fresh buffers hold, the answers to the reads are those to the
messages if and only if each read is one message. -/
theorem answers_eq_iff (hm : ∀ m ∈ ms, NUL ∉ m) (hs : cuts.flatten = stream NUL ms) :
    (∀ junks : List (List Byte), junks.length = cuts.length → (∀ junk ∈ junks, junk.length = 1024) →
      answers (junks.zip cuts) = some (ms.flatMap reply)) ↔ cuts = ms.map (· ++ [NUL]) := by
  refine ⟨fun h => ?_, ?_⟩
  · -- a buffer without a terminator of its own shows that the read must have one
    obtain ⟨junk, hlen, hjunk⟩ : ∃ junk : List Byte, junk.length = 1024 ∧ NUL ∉ junk :=
      ⟨List.replicate 1024 65#8, List.length_replicate, fun h => absurd (List.eq_of_mem_replicate h) (by decide)⟩
    have hzip : (cuts.map fun _ => junk).zip cuts = cuts.map fun d => (junk, d) := by
      clear h hs
      induction cuts with
      | nil => rfl
      | cons d cuts ih => rw [List.map_cons, List.zip_cons_cons, ih, List.map_cons]
    have ha := h (cuts.map fun _ => junk) (by simp) (fun j hj => by
      obtain ⟨-, -, rfl⟩ := List.mem_map.1 hj
      exact hlen)
    rw [hzip] at ha
    have hz : ∀ d ∈ cuts, NUL ∈ d := by
      intro d hd
      have hmem := mem_of_answers ha (junk, d) (List.mem_map_of_mem hd)
      rcases List.mem_append.1 hmem with hmem | hmem
      · exact hmem
      · exact absurd (List.mem_of_mem_drop hmem) hjunk
    rw [answers_of_terminated (by simpa using hz), Option.some.injEq, List.flatMap_map] at ha
    exact reads_eq hm hs hz (congrArg List.length ha)
  · rintro rfl junks hlen -
    have hz : ∀ r ∈ junks.zip (ms.map (· ++ [NUL])), NUL ∈ r.2 := by
      intro r hr
      obtain ⟨m, -, hd⟩ := List.mem_map.1 (List.of_mem_zip hr).2
      rw [← hd]; simp
    have hsnd : (junks.zip (ms.map (· ++ [NUL]))).map Prod.snd = ms.map (· ++ [NUL]) :=
      List.map_snd_zip (Nat.le_of_eq hlen.symm)
    rw [answers_of_terminated hz, ← List.flatMap_map Prod.snd (fun d => reply (cstr NUL d)), hsnd, List.flatMap_map]
    congr 1
    exact List.flatMap_congr fun m hm' => by rw [cstr_append_cons NUL (hm m hm') []]

/-- Whatever the fresh buffers hold, the answers to the reads are those to the
messages, one after the other, if and only if each read is one message with its
terminator; and the answers are what the server has sent on a connection, once
nothing is on its way there. -/
theorem one_message_per_read (hm : ∀ m ∈ ms, NUL ∉ m) (hs : cuts.flatten = stream NUL ms) :
    ((∀ junks : List (List Byte), junks.length = cuts.length → (∀ junk ∈ junks, junk.length = 1024) →
      answers (junks.zip cuts) = some (ms.flatMap reply)) ↔ cuts = ms.map (· ++ [NUL])) ∧
    ∀ {w : Nat} {s : Pipeline.State w}, (Pipeline.server w).Reachable s → ∀ c fd : Nat, s.conns[c]? = some fd →
      s.contents c = [] → answers (s.received fd) = some (s.sent fd).flatten :=
  ⟨answers_eq_iff hm hs, fun h _ _ hc hd => sent_answers h hc hd⟩

theorem one_message_per_read_hi :
    (∀ junks : List (List Byte), junks.length = 2 → (∀ junk ∈ junks, junk.length = 1024) →
      answers (junks.zip [[104#8, NUL], [105#8, NUL]]) = some (reply [104#8] ++ reply [105#8])) ↔
    [[104#8, NUL], [105#8, NUL]] = [[104#8], [105#8]].map (· ++ [NUL]) :=
  (@one_message_per_read [[104#8], [105#8]] _ (by decide) rfl).1

/-- Two messages that come in one read get one answer, whatever the buffer held. -/
theorem joined_messages : [[104#8, NUL, 105#8, NUL]].flatten = stream NUL [[104#8], [105#8]] ∧
    ∀ junk : List Byte, answers [(junk, [104#8, NUL, 105#8, NUL])] ≠ some ([[104#8], [105#8]].flatMap reply) := by
  refine ⟨rfl, fun junk => ?_⟩
  rw [answers_of_terminated (by simp)]
  simp only [List.flatMap_cons, List.flatMap_nil]
  decide

end Ex6.Framing
