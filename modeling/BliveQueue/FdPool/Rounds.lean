/-
# A dispatch round as a walk

`hash_foreach` keeps one pointer between two callbacks: the `next` of the entry whose
callback runs. While that pointer stays the head of what is left of its bucket, the
round is a walk over the registered file descriptors, and every call of a callback
removes or inserts one member. The guard `KeepsWalk` names the calls after which it is
no longer one:

* the removal of the entry that `next` points to,
* the insertion of a file descriptor that was already called, in front of the walk,
* an insertion that makes the array grow while `next` is not NULL, or that thereby puts
  a file descriptor that was already called in front of the walk.
-/

import BliveQueue.FdPool.Registry
import BliveQueue.Math.Walk

namespace BliveQueue.FdPool

open BliveQueue.Hash BliveQueue.Math.LinkedChain BliveQueue.Math.Walk BliveQueue.Utils
open BliveQueue.Utils.FdPool BliveQueue.Utils.Hash BliveQueue.Utils.Select

/-! ## The guard -/

/-- The entry under the key of a file descriptor. -/
def entryOf (t : FdPoll) (fd : Fd) : Option EntryPtr :=
  (t.find (fdKey fd)).bind fun r => if r.2 then (t.readLink r.1).join else none

/-- The pool watches the file descriptor. -/
def Registered (t : FdPoll) (fd : Fd) : Prop :=
  (((entryOf t fd).bind t.entry).bind HashEntry.value).map EngineFd.fd = some fd

instance (t : FdPoll) (fd : Fd) : Decidable (Registered t fd) := by
  unfold Registered
  infer_instance

/-- Where the walk goes on after the running callback. -/
def saved (s : Round) : Option EntryPtr :=
  match s.pc with
  | .inCallback _ next => next
  | _ => none

/-- In a table of this size the walk has still to pass the end of the bucket of `fd`. -/
def Ahead (s : Round) (max : UInt32) (fd : Fd) : Prop :=
  s.index < bucketIn max fd ∨ bucketIn max fd = s.index ∧ saved s ≠ none

instance (s : Round) (max : UInt32) (fd : Fd) : Decidable (Ahead s max fd) := by
  unfold Ahead
  infer_instance

/-- The insertion of a file descriptor that the pool does not watch. -/
def InsertKeepsWalk (s : Round) (fd : Fd) : Prop :=
  if s.fdPoll.count < s.fdPoll.max then fd ∈ s.invoked → ¬ Ahead s s.fdPoll.max fd
  else
    saved s = none ∧ ∀ g ∈ s.invoked, g = fd ∨ entryOf s.fdPoll g ≠ none →
      ¬ Ahead s (s.fdPoll.max * 2 + 1) g

instance (s : Round) (fd : Fd) : Decidable (InsertKeepsWalk s fd) := by
  unfold InsertKeepsWalk
  infer_instance

/-- The step leaves the rest of the walk in order. -/
def KeepsWalk (s : Round) (label : Round.Action × Observation) : Prop :=
  match label.1 with
  | .advance => True
  | .call (.del fd) => saved s ≠ none → entryOf s.fdPoll fd ≠ saved s
  | .call (.add fd _ mem) =>
    0 ≤ fd → mem.engineFd = true → entryOf s.fdPoll fd = none → InsertKeepsWalk s fd

instance (s : Round) (label : Round.Action × Observation) : Decidable (KeepsWalk s label) := by
  unfold KeepsWalk
  split <;> infer_instance

/-- What a step of a round does to the registrations. -/
def eventOf (label : Round.Action × Observation) : Event Fd :=
  match label with
  | (.advance, .invoked fd) => .called fd
  | (.call (.add fd _ _), .called caller .ok) => .inserted caller fd
  | (.call (.del fd), .called caller .ok) => .removed caller fd
  | _ => .quiet

/-! ## Looking up an entry -/

variable {t t' : FdPoll} {chain chain' : ℕ → List EntryPtr} {recycled : List EntryPtr}
variable {i : ℕ} {p q : EntryPtr} {fd : Fd} {pre suf cells : List EntryPtr}

theorem entryOf_cases (h : Chained t chain recycled) (fd : Fd) :
    (∃ p ∈ chain (bucketOf t (fdKey fd)), Matches t (fdKey fd) p ∧ entryOf t fd = some p) ∨
      (∀ q ∈ chain (bucketOf t (fdKey fd)), ¬ Matches t (fdKey fd) q) ∧ entryOf t fd = none := by
  rcases h.find_eq (fdKey fd) with ⟨pre, p, post, hcut, hit, -, hfind⟩ | ⟨missing, hfind⟩
  · have hread := h.readLink_cut hcut
    exact Or.inl ⟨p, by simp [hcut], hit, by simp [entryOf, hfind, hread]⟩
  · exact Or.inr ⟨missing, by simp [entryOf, hfind]⟩

/-- The entry of a file descriptor that the pool watches. -/
theorem Pool.entryOf_eq_some (h : Pool t chain recycled) (hp : Stored chain p)
    (hfd : fdOf t p = some fd) : entryOf t fd = some p := by
  obtain ⟨hvalid, -⟩ := h.held hp hfd
  rcases entryOf_cases h.chained fd with ⟨q, hq, hit, heq⟩ | ⟨missing, -⟩
  · rw [heq, h.distinct q p fd ⟨_, hq⟩ hp ((h.matches_iff ⟨_, hq⟩ hvalid).mp hit) hfd]
  · exact absurd hfd (h.not_watched hvalid missing p hp)

theorem Pool.entryOf_eq_none (h : Pool t chain recycled) (hfd : ValidFd fd)
    (missing : ∀ q, Stored chain q → fdOf t q ≠ some fd) : entryOf t fd = none := by
  rcases entryOf_cases h.chained fd with ⟨q, hq, hit, -⟩ | ⟨-, heq⟩
  · exact absurd ((h.matches_iff ⟨_, hq⟩ hfd).mp hit) (missing q ⟨_, hq⟩)
  · exact heq

/-- The pool watches a file descriptor through a stored entry. -/
theorem Pool.stored_of_registered (h : Pool t chain recycled) (hfd : Registered t fd) :
    ∃ p, Stored chain p ∧ fdOf t p = some fd := by
  rcases entryOf_cases h.chained fd with ⟨p, hp, -, heq⟩ | ⟨-, heq⟩
  · refine ⟨p, ⟨_, hp⟩, ?_⟩
    rw [Registered, heq, Option.bind_some] at hfd
    rw [fdOf, dataOf, ← hfd]
    cases t.entry p <;> rfl
  · simp [Registered, heq] at hfd

/-! ## Members and the way ahead -/

/-- The file descriptors of some entries. -/
def fdsOf (t : FdPoll) (P : EntryPtr → Prop) : Set Fd := {fd | ∃ p, P p ∧ fdOf t p = some fd}

/-- The entries that the walk has still to visit: what is left of its bucket and the
later buckets. -/
def Coming (chain : ℕ → List EntryPtr) (index : ℕ) (suf : List EntryPtr) (p : EntryPtr) : Prop :=
  p ∈ suf ∨ ∃ j, index < j ∧ p ∈ chain j

theorem Coming.stored (hcut : chain i = pre ++ suf) (h : Coming chain i suf p) :
    Stored chain p := by
  rcases h with hmem | ⟨j, -, hmem⟩
  · exact ⟨i, by simp [hcut, hmem]⟩
  · exact ⟨j, hmem⟩

theorem fdsOf_congr {P P' : EntryPtr → Prop} (hP : ∀ q, P' q ↔ P q)
    (hfds : ∀ q, P q → fdOf t' q = fdOf t q) : fdsOf t' P' = fdsOf t P := by
  ext fd
  constructor
  · rintro ⟨q, hq, heq⟩
    have hPq := (hP q).mp hq
    exact ⟨q, hPq, (hfds q hPq).symm.trans heq⟩
  · rintro ⟨q, hq, heq⟩
    exact ⟨q, (hP q).mpr hq, (hfds q hq).trans heq⟩

/-- Without one entry its file descriptor is missing. -/
theorem Pool.fdsOf_erase (h : Pool t chain recycled) (hp : Stored chain p)
    (hfd : fdOf t p = some fd) {P P' : EntryPtr → Prop} (hstored : ∀ q, P q → Stored chain q)
    (hP : ∀ q, P' q ↔ P q ∧ q ≠ p) (others : ∀ q, q ≠ p → fdOf t' q = fdOf t q) :
    fdsOf t' P' = fdsOf t P \ {fd} := by
  ext g
  constructor
  · rintro ⟨q, hq, heq⟩
    obtain ⟨hPq, hne⟩ := (hP q).mp hq
    rw [others q hne] at heq
    refine ⟨⟨q, hPq, heq⟩, ?_⟩
    rintro rfl
    exact hne (h.distinct q p _ (hstored q hPq) hp heq hfd)
  · rintro ⟨⟨q, hPq, heq⟩, hne⟩
    have hqp : q ≠ p := by
      rintro rfl
      exact hne (Option.some.inj (heq.symm.trans hfd))
    exact ⟨q, (hP q).mpr ⟨hPq, hqp⟩, (others q hqp).trans heq⟩

/-- With one more entry its file descriptor is a member. -/
theorem fdsOf_insert {P P' : EntryPtr → Prop} (hP : ∀ q, P' q ↔ P q ∨ q = p)
    (fresh : ¬ P p) (hfd : fdOf t' p = some fd) (others : ∀ q, q ≠ p → fdOf t' q = fdOf t q) :
    fdsOf t' P' = insert fd (fdsOf t P) := by
  have hne : ∀ q, P q → q ≠ p := by
    rintro q hq rfl
    exact fresh hq
  ext g
  constructor
  · rintro ⟨q, hq, heq⟩
    rcases (hP q).mp hq with hold | rfl
    · exact Or.inr ⟨q, hold, (others q (hne q hold)).symm.trans heq⟩
    · exact Or.inl (Option.some.inj (heq.symm.trans hfd))
  · rintro (rfl | ⟨q, hq, heq⟩)
    · exact ⟨p, (hP p).mpr (Or.inr rfl), hfd⟩
    · exact ⟨q, (hP q).mpr (Or.inl hq), (others q (hne q hq)).trans heq⟩

/-! ## The round and its walk -/

/-- The walk of a round whose bucket is cut into what it has passed and what is left. -/
structure Tracks (readFds : List Fd) (s : Round) (w : State Fd) (chain : ℕ → List EntryPtr)
    (recycled pre suf : List EntryPtr) : Prop where
  pool : Pool s.fdPoll chain recycled
  readFds : s.readFds = readFds
  called : w.called = s.invoked
  present : w.present = fdsOf s.fdPoll (Stored chain)
  ahead : w.ahead = fdsOf s.fdPoll (Coming chain s.index suf)
  index : s.index < s.fdPoll.slots
  cut : chain s.index = pre ++ suf
  position : match s.pc with
    | .visiting entry => entry = suf.head?
    | .inCallback fd next => next = suf.head? ∧ fd ∈ s.invoked
    | .finished => suf = [] ∧ ∀ j, s.index < j → chain j = []

/-- A round and the walk that it is. -/
def Follows (readFds : List Fd) (s : Round) (w : State Fd) : Prop :=
  ∃ chain recycled pre suf, Tracks readFds s w chain recycled pre suf

variable {readFds : List Fd} {s s' : Round} {w w' : State Fd} {recycled' post : List EntryPtr}

theorem coming_nextBucket :
    Coming chain (i + 1) (chain (i + 1)) q ↔ Coming chain i [] q := by
  constructor
  · rintro (hmem | ⟨j, hj, hmem⟩)
    · exact Or.inr ⟨i + 1, Nat.lt_succ_self i, hmem⟩
    · exact Or.inr ⟨j, Nat.lt_of_succ_lt hj, hmem⟩
  · rintro (hmem | ⟨j, hj, hmem⟩)
    · exact absurd hmem List.not_mem_nil
    · rcases eq_or_lt_of_le (Nat.succ_le_of_lt hj) with rfl | hlt
      · exact Or.inl hmem
      · exact Or.inr ⟨j, hlt, hmem⟩

theorem erase_append (hnodup : (pre ++ suf).Nodup) :
    (pre ++ suf).erase p = pre.erase p ++ suf.erase p := by
  rw [List.erase_append]
  split
  · rename_i hmem
    rw [List.erase_of_not_mem fun hsuf => List.disjoint_of_nodup_append hnodup hmem hsuf]
  · rename_i hmem
    rw [List.erase_of_not_mem hmem]

/-- A round starts as a walk over all registered file descriptors. -/
theorem follows_start (hpool : Pool t chain recycled) (hstart : startRound t readFds = some s) :
    Follows readFds s ⟨fdsOf t (Stored chain), fdsOf t (Stored chain), []⟩ := by
  obtain ⟨entry, hread, rfl⟩ := Option.map_eq_some_iff.mp hstart
  have hslots : 0 < t.slots := hpool.chained.slots ▸ Nat.succ_pos _
  rw [HashT.readLink, if_pos hslots] at hread
  obtain rfl := Option.some.inj hread
  refine ⟨chain, recycled, [], chain 0, hpool, rfl, rfl, rfl, ?_, hslots, rfl, ?_⟩
  · have hcut : chain 0 = [] ++ chain 0 := rfl
    refine (fdsOf_congr (fun q => ⟨fun hq => hq.stored hcut, ?_⟩) fun _ _ => rfl).symm
    rintro ⟨j, hj⟩
    rcases Nat.eq_zero_or_pos j with rfl | hpos
    · exact Or.inl hj
    · exact Or.inr ⟨j, hpos, hj⟩
  · exact (hpool.chained.bucket 0 hslots).start_eq_head?

theorem Tracks.nodup (h : Tracks readFds s w chain recycled pre suf) : (pre ++ suf).Nodup :=
  h.cut ▸ h.pool.chained.nodup s.index

theorem Tracks.slots (h : Tracks readFds s w chain recycled pre suf)
    (hpool : Pool t' chain' recycled') (max : t'.max = s.fdPoll.max) : s.index < t'.slots := by
  rw [hpool.chained.slots, max, ← h.pool.chained.slots]
  exact h.index

/-- What the walk has before it without one entry. -/
theorem Tracks.coming_erase (h : Tracks readFds s w chain recycled pre suf) (hp : p ∈ chain i) :
    Coming (Function.update chain i ((chain i).erase p)) s.index (suf.erase p) q ↔
      Coming chain s.index suf q ∧ q ≠ p := by
  have hnodup : suf.Nodup := List.Nodup.of_append_right h.nodup
  simp only [Coming, hnodup.mem_erase_iff, h.pool.chained.mem_update_erase hp]
  constructor
  · rintro (⟨hne, hmem⟩ | ⟨j, hj, hmem, hne⟩)
    · exact ⟨Or.inl hmem, hne⟩
    · exact ⟨Or.inr ⟨j, hj, hmem⟩, hne⟩
  · rintro ⟨hmem | ⟨j, hj, hmem⟩, hne⟩
    · exact Or.inl ⟨hne, hmem⟩
    · exact Or.inr ⟨j, hj, hmem, hne⟩

/-- The walk without one entry. -/
theorem Tracks.remove (h : Tracks readFds s w chain recycled pre suf)
    (hpool : Pool t' (Function.update chain i ((chain i).erase p)) recycled')
    (hp : p ∈ chain i) (hfd : fdOf s.fdPoll p = some fd) (max : t'.max = s.fdPoll.max)
    (others : ∀ q, q ≠ p → fdOf t' q = fdOf s.fdPoll q) (called : List Fd) (pc : RoundPc)
    (position : match pc with
      | .visiting entry => entry = (suf.erase p).head?
      | .inCallback fd next => next = (suf.erase p).head? ∧ fd ∈ called
      | .finished => False) :
    Follows readFds { s with fdPoll := t', pc := pc, invoked := called }
      ⟨w.present \ {fd}, w.ahead \ {fd}, called⟩ := by
  have hcut : Function.update chain i ((chain i).erase p) s.index = pre.erase p ++ suf.erase p := by
    rw [← erase_append h.nodup, ← h.cut]
    rcases eq_or_ne s.index i with rfl | hne
    · rw [Function.update_self]
    · rw [Function.update_of_ne hne, List.erase_of_not_mem]
      exact fun hmem => hne (h.pool.chained.bucket_unique hmem hp)
  refine ⟨_, recycled', pre.erase p, suf.erase p, hpool, h.readFds, rfl, ?_, ?_,
    h.slots hpool max, hcut, ?_⟩
  · rw [h.present]
    exact (h.pool.fdsOf_erase ⟨i, hp⟩ hfd (fun _ => id)
      (fun q => stored_erase h.pool.chained hp) others).symm
  · rw [h.ahead]
    exact (h.pool.fdsOf_erase ⟨i, hp⟩ hfd (fun _ hq => hq.stored h.cut)
      (fun q => h.coming_erase hp) others).symm
  · cases pc with
    | visiting entry => exact position
    | inCallback fd next => exact position
    | finished => exact position.elim

/-! ## Statements of the walk -/

/-- The walk reaches the end of a bucket. -/
theorem Tracks.advance_bucket (h : Tracks readFds s w chain recycled pre suf)
    (hpc : s.pc = .visiting none) :
    ∃ s', s.advance = some (.silent, s') ∧ Follows readFds s' w := by
  have hsuf := h.position
  rw [hpc] at hsuf
  obtain rfl := List.head?_eq_none_iff.mp hsuf.symm
  by_cases hnext : s.index + 1 ≤ s.fdPoll.max.toNat
  · have hslots : s.index + 1 < s.fdPoll.slots := by
      rw [h.pool.chained.slots]
      exact Nat.lt_succ_of_le hnext
    have hadvance : s.advance = some (.silent,
        { s with
          index := s.index + 1
          pc := .visiting (s.fdPoll.array (s.index + 1)) }) := by
      simp only [Round.advance, hpc, if_pos hnext, HashT.readLink, if_pos hslots, Option.map_some]
    refine ⟨_, hadvance, chain, recycled, [], chain (s.index + 1), h.pool, h.readFds, h.called,
      h.present, ?_, hslots, rfl, (h.pool.chained.bucket _ hslots).start_eq_head?⟩
    rw [h.ahead]
    exact (fdsOf_congr (fun q => coming_nextBucket) fun _ _ => rfl).symm
  · have hadvance : s.advance = some (.silent, { s with pc := .finished }) := by
      simp only [Round.advance, hpc, if_neg hnext]
    have hlater : ∀ j, s.index < j → chain j = [] := by
      intro j hj
      apply h.pool.chained.beyond
      rw [h.pool.chained.slots]
      omega
    exact ⟨_, hadvance, chain, recycled, pre, [], h.pool, h.readFds, h.called, h.present, h.ahead,
      h.index, h.cut, rfl, hlater⟩

/-- What the walk has before it without the head of its bucket. -/
theorem Tracks.coming_tail (h : Tracks readFds s w chain recycled pre (p :: post)) :
    Coming chain s.index post q ↔ Coming chain s.index (p :: post) q ∧ q ≠ p := by
  have hp : p ∈ chain s.index := by simp [h.cut]
  have hnodup : p ∉ post := (List.nodup_cons.mp (List.Nodup.of_append_right h.nodup)).1
  constructor
  · rintro (hmem | ⟨j, hj, hmem⟩)
    · exact ⟨Or.inl (List.mem_cons_of_mem p hmem), ne_of_mem_of_not_mem hmem hnodup⟩
    · refine ⟨Or.inr ⟨j, hj, hmem⟩, ?_⟩
      rintro rfl
      exact hj.ne (h.pool.chained.bucket_unique hp hmem)
  · rintro ⟨hmem | ⟨j, hj, hmem⟩, hne⟩
    · exact Or.inl ((List.mem_cons.mp hmem).resolve_left hne)
    · exact Or.inr ⟨j, hj, hmem⟩

/-- The walk past the head of its bucket. -/
theorem Tracks.pass (h : Tracks readFds s w chain recycled pre (p :: post))
    (hfd : fdOf s.fdPoll p = some fd) {called : List Fd} {pc : RoundPc}
    (position : match pc with
      | .visiting entry => entry = post.head?
      | .inCallback fd next => next = post.head? ∧ fd ∈ called
      | .finished => False) :
    Follows readFds { s with pc := pc, invoked := called }
      ⟨w.present, w.ahead \ {fd}, called⟩ := by
  have hp : p ∈ chain s.index := by simp [h.cut]
  refine ⟨chain, recycled, pre ++ [p], post, h.pool, h.readFds, rfl, h.present, ?_, h.index,
    by simp [h.cut], ?_⟩
  · rw [h.ahead]
    exact (h.pool.fdsOf_erase ⟨_, hp⟩ hfd (fun _ hq => hq.stored h.cut) (fun q => h.coming_tail)
      fun _ _ => rfl).symm
  · cases pc with
    | visiting entry => exact position
    | inCallback fd next => exact position
    | finished => exact position.elim

/-- The walk gives an entry to `__fd_isset_foreach`. -/
theorem Tracks.advance_entry (h : Tracks readFds s w chain recycled pre suf)
    (hpc : s.pc = .visiting (some p)) :
    ∃ obs s' w', s.advance = some (obs, s') ∧
      Step (· ∈ readFds) w (eventOf (.advance, obs)) w' ∧ Follows readFds s' w' := by
  have hsuf := h.position
  rw [hpc] at hsuf
  cases suf with
  | nil => exact absurd hsuf nofun
  | cons q post =>
      obtain rfl := Option.some.inj hsuf
      have hp : p ∈ chain s.index := by simp [h.cut]
      obtain ⟨fd, temporary, hvalid, hd⟩ := h.pool.holds p ⟨_, hp⟩
      have hfd := fdOf_of_data hd
      obtain ⟨e, he, hdata, hnextp⟩ := exists_entry_of_dataOf hd
      have hvalue : e.value = some ⟨fd, temporary⟩ := congrArg EntryData.value hdata
      have hnext : e.next = post.head? := by
        have hpath := h.pool.chained.bucket _ h.index
        rw [h.cut] at hpath
        obtain ⟨mid, -, -, hrest⟩ := path_append.mp hpath
        exact hnextp ▸ hrest.start_eq_head?
      have hahead : fd ∈ w.ahead := by
        rw [h.ahead]
        exact ⟨p, Or.inl List.mem_cons_self, hfd⟩
      have hcalled : fd ∈ s.invoked ++ [fd] := by simp
      by_cases hread : fd ∈ s.readFds
      · cases temporary with
        | false =>
            have hadvance : s.advance = some (.invoked fd,
                { s with pc := .inCallback fd e.next, invoked := s.invoked ++ [fd] }) := by
              simp [Round.advance, hpc, he, hvalue, hread, Round.popTemporary]
            refine ⟨_, _, _, hadvance, .call hahead Set.sdiff_subset subset_rfl, ?_⟩
            rw [h.called]
            exact h.pass hfd ⟨hnext, hcalled⟩
        | true =>
            -- the entry leaves the pool before its callback runs
            obtain ⟨ret, t', chain', recycled', hpop, hdeletes, hpool⟩ := h.pool.hashPop hvalid
            have hadvance : s.advance = some (.invoked fd,
                { s with
                  fdPoll := t'
                  pc := .inCallback fd e.next
                  invoked := s.invoked ++ [fd] }) := by
              simp [Round.advance, hpc, he, hvalue, hread, Round.popTemporary, hpop]
            refine ⟨_, _, _, hadvance, .call hahead subset_rfl Set.sdiff_subset, ?_⟩
            rw [h.called]
            cases hdeletes with
            | absent missing => exact absurd hfd (missing p ⟨_, hp⟩)
            | @removed _ i r stored held max others =>
                obtain rfl := h.pool.distinct r p fd ⟨i, stored⟩ ⟨_, hp⟩ held hfd
                refine h.remove hpool stored held max others _ (.inCallback fd e.next) ⟨?_, hcalled⟩
                rw [List.erase_cons_head]
                exact hnext
      · have hadvance : s.advance = some (.silent, { s with pc := .visiting e.next }) := by
          simp [Round.advance, hpc, he, hvalue, hread]
        refine ⟨_, _, _, hadvance, .pass (x := fd) (h.readFds ▸ hread), ?_⟩
        rw [h.called]
        exact h.pass hfd hnext

/-- Every statement of an unfinished round has a result, and is a step of the walk. -/
theorem Tracks.advance (h : Tracks readFds s w chain recycled pre suf) (hpc : s.pc ≠ .finished) :
    ∃ obs s' w', s.advance = some (obs, s') ∧
      Step (· ∈ readFds) w (eventOf (.advance, obs)) w' ∧ Follows readFds s' w' := by
  cases hat : s.pc with
  | visiting entry =>
      cases entry with
      | none =>
          obtain ⟨s', hadvance, hfollows⟩ := h.advance_bucket hat
          exact ⟨_, s', w, hadvance, .quiet, hfollows⟩
      | some p => exact h.advance_entry hat
  | inCallback fd next =>
      have hposition := h.position
      rw [hat] at hposition
      have hadvance : s.advance = some (.silent, { s with pc := .visiting next }) := by
        simp only [Round.advance, hat]
      exact ⟨_, _, w, hadvance, .quiet, chain, recycled, pre, suf, h.pool, h.readFds, h.called,
        h.present, h.ahead, h.index, h.cut, hposition.1⟩
  | finished => exact absurd hat hpc

/-! ## Calls of a callback -/

variable {caller : Fd} {next : Option EntryPtr} {c : PoolCall} {obs : Observation}

theorem Tracks.saved_eq (h : Tracks readFds s w chain recycled pre suf)
    (hpc : s.pc = .inCallback caller next) : saved s = suf.head? := by
  have hposition := h.position
  rw [hpc] at hposition
  rw [saved, hpc]
  exact hposition.1

theorem Tracks.caller_mem (h : Tracks readFds s w chain recycled pre suf)
    (hpc : s.pc = .inCallback caller next) : caller ∈ w.called := by
  have hposition := h.position
  rw [hpc] at hposition
  rw [h.called]
  exact hposition.2

/-- The removal of another entry than the one `next` points to. -/
theorem Tracks.deletes (h : Tracks readFds s w chain recycled pre suf)
    (hpc : s.pc = .inCallback caller next) (hpool : Pool t' chain' recycled')
    (hdeletes : Deletes s.fdPoll chain fd t' chain')
    (hkeeps : saved s ≠ none → entryOf s.fdPoll fd ≠ saved s) :
    ∃ w', Step (· ∈ readFds) w (.removed caller fd) w' ∧
      Follows readFds { s with fdPoll := t' } w' := by
  have hposition := h.position
  rw [hpc] at hposition
  refine ⟨_, .remove (h.caller_mem hpc), ?_⟩
  cases hdeletes with
  | absent missing =>
      have hpresent : fd ∉ w.present := by
        rw [h.present]
        rintro ⟨q, hq, heq⟩
        exact missing q hq heq
      have hahead : fd ∉ w.ahead := by
        rw [h.ahead]
        rintro ⟨q, hq, heq⟩
        exact missing q (hq.stored h.cut) heq
      rw [Set.sdiff_singleton_eq_self hpresent, Set.sdiff_singleton_eq_self hahead]
      exact ⟨chain, recycled, pre, suf, h⟩
  | @removed _ i p stored held max others =>
      rw [h.called]
      have hhead : suf.head? = (suf.erase p).head? := by
        rw [h.saved_eq hpc, h.pool.entryOf_eq_some ⟨i, stored⟩ held] at hkeeps
        cases suf with
        | nil => rfl
        | cons r post =>
            have hne : p ≠ r := fun heq => hkeeps (by simp) (by simp [heq])
            rw [List.erase_cons_tail (by simpa using hne.symm)]
            rfl
      apply h.remove hpool stored held max others s.invoked s.pc
      rw [hpc]
      exact ⟨hposition.1.trans hhead, hposition.2⟩

/-- The insertion of an entry, when it stands where the walk does not call it again. -/
theorem Tracks.inserts (h : Tracks readFds s w chain recycled pre suf)
    (hpc : s.pc = .inCallback caller next) (hpool : Pool t' chain' recycled')
    (fresh : ∀ j, p ∉ chain j) (held : fdOf t' p = some fd)
    (others : ∀ q, q ≠ p → fdOf t' q = fdOf s.fdPoll q)
    (members : ∀ q, Stored chain' q ↔ Stored chain q ∨ q = p) {pre' suf' : List EntryPtr}
    (hindex : s.index < t'.slots) (hcut : chain' s.index = pre' ++ suf')
    (hhead : suf'.head? = suf.head?)
    (hmore : ∀ q, Coming chain s.index suf q → Coming chain' s.index suf' q)
    (hcalled : ∀ q g, Coming chain' s.index suf' q → fdOf t' q = some g → g ∈ s.invoked →
      Coming chain s.index suf q) :
    ∃ w', Step (· ∈ readFds) w (.inserted caller fd) w' ∧
      Follows readFds { s with fdPoll := t' } w' := by
  have hposition := h.position
  rw [hpc] at hposition
  have hold : ∀ q, Stored chain q → fdOf t' q = fdOf s.fdPoll q := by
    rintro q ⟨j, hj⟩
    exact others q (ne_of_mem_of_not_mem hj (fresh j))
  have hpresent : insert fd w.present = fdsOf t' (Stored chain') := by
    rw [h.present]
    exact (fdsOf_insert members (fun ⟨j, hj⟩ => fresh j hj) held others).symm
  refine ⟨{ w with
    present := insert fd w.present, ahead := fdsOf t' (Coming chain' s.index suf') },
    .insert ?_ ?_ ?_, chain', recycled', pre', suf', hpool, h.readFds, h.called, hpresent, rfl,
    hindex, hcut, ?_⟩
  · rw [h.ahead]
    rintro g ⟨q, hq, heq⟩
    exact ⟨q, hmore q hq, (hold q (hq.stored h.cut)).trans heq⟩
  · rw [hpresent]
    rintro g ⟨q, hq, heq⟩
    exact ⟨q, hq.stored hcut, heq⟩
  · rintro g ⟨q, hq, heq⟩
    by_cases hg : g ∈ w.called
    · have hcoming := hcalled q g hq heq (h.called ▸ hg)
      rw [h.ahead]
      exact Or.inl ⟨q, hcoming, (hold q (hcoming.stored h.cut)).symm.trans heq⟩
    · exact Or.inr hg
  · rw [hpc]
    exact ⟨hposition.1.trans hhead.symm, hposition.2⟩

/-- An insertion without growth. -/
theorem Tracks.adds_roomy (h : Tracks readFds s w chain recycled pre suf)
    (hpc : s.pc = .inCallback caller next)
    (hpool : Pool t' (Function.update chain (bucketIn s.fdPoll.max fd)
      (chain (bucketIn s.fdPoll.max fd) ++ [p])) recycled')
    (fresh : ∀ j, p ∉ chain j) (max : t'.max = s.fdPoll.max) (held : fdOf t' p = some fd)
    (others : ∀ q, q ≠ p → fdOf t' q = fdOf s.fdPoll q)
    (hkeeps : fd ∈ s.invoked → ¬ Ahead s s.fdPoll.max fd) :
    ∃ w', Step (· ∈ readFds) w (.inserted caller fd) w' ∧
      Follows readFds { s with fdPoll := t' } w' := by
  have hsaved := h.saved_eq hpc
  have hindex := h.slots hpool max
  -- a file descriptor that was called is not put in front of the walk
  have hpassed : ∀ q g, q = p → fdOf t' q = some g → g ∈ s.invoked →
      ¬ Ahead s s.fdPoll.max fd := by
    rintro q g rfl heq hg
    obtain rfl := Option.some.inj (held.symm.trans heq)
    exact hkeeps hg
  by_cases hhere : bucketIn s.fdPoll.max fd = s.index ∧ suf ≠ []
  · obtain ⟨hbucket, hsuf⟩ := hhere
    have hahead : Ahead s s.fdPoll.max fd := by
      refine Or.inr ⟨hbucket, ?_⟩
      rw [hsaved]
      exact fun hnone => hsuf (List.head?_eq_none_iff.mp hnone)
    have hcut : Function.update chain (bucketIn s.fdPoll.max fd)
        (chain (bucketIn s.fdPoll.max fd) ++ [p]) s.index = pre ++ (suf ++ [p]) := by
      rw [hbucket, Function.update_self, h.cut, List.append_assoc]
    refine h.inserts hpc hpool fresh held others (fun q => stored_concat) hindex hcut ?_ ?_ ?_
    · rw [List.head?_append_of_ne_nil _ hsuf]
    · rintro q (hq | ⟨j, hj, hq⟩)
      · exact Or.inl (List.mem_append_left _ hq)
      · exact Or.inr ⟨j, hj, mem_update_concat.mpr (Or.inl hq)⟩
    · rintro q g (hq | ⟨j, hj, hq⟩) heq hg
      · rcases List.mem_append.mp hq with hold | hnew
        · exact Or.inl hold
        · exact absurd hahead (hpassed q g (List.mem_singleton.mp hnew) heq hg)
      · rcases mem_update_concat.mp hq with hold | ⟨-, hnew⟩
        · exact Or.inr ⟨j, hj, hold⟩
        · exact absurd hahead (hpassed q g hnew heq hg)
  · obtain ⟨pre', hcut⟩ : ∃ pre', Function.update chain (bucketIn s.fdPoll.max fd)
        (chain (bucketIn s.fdPoll.max fd) ++ [p]) s.index = pre' ++ suf := by
      rcases eq_or_ne s.index (bucketIn s.fdPoll.max fd) with hbucket | hne
      · obtain rfl : suf = [] := by
          by_contra hsuf
          exact hhere ⟨hbucket.symm, hsuf⟩
        rw [hbucket, Function.update_self]
        exact ⟨_, (List.append_nil _).symm⟩
      · rw [Function.update_of_ne hne]
        exact ⟨pre, h.cut⟩
    refine h.inserts hpc hpool fresh held others (fun q => stored_concat) hindex hcut rfl
      ?_ ?_
    · rintro q (hq | ⟨j, hj, hq⟩)
      · exact Or.inl hq
      · exact Or.inr ⟨j, hj, mem_update_concat.mpr (Or.inl hq)⟩
    · rintro q g (hq | ⟨j, hj, hq⟩) heq hg
      · exact Or.inl hq
      · rcases mem_update_concat.mp hq with hold | ⟨rfl, hnew⟩
        · exact Or.inr ⟨j, hj, hold⟩
        · exact absurd (Or.inl hj) (hpassed q g hnew heq hg)

/-- An insertion that makes the table grow at the end of a bucket. -/
theorem Tracks.adds_grown (h : Tracks readFds s w chain recycled pre suf)
    (hpc : s.pc = .inCallback caller next) (hpool : Pool t' chain' recycled')
    (fresh : ∀ j, p ∉ chain j) (max : t'.max = s.fdPoll.max * 2 + 1) (held : fdOf t' p = some fd)
    (others : ∀ q, q ≠ p → fdOf t' q = fdOf s.fdPoll q)
    (members : ∀ q, Stored chain' q ↔ Stored chain q ∨ q = p)
    (hsaved : saved s = none)
    (hkeeps : ∀ g ∈ s.invoked, g = fd ∨ entryOf s.fdPoll g ≠ none →
      ¬ Ahead s (s.fdPoll.max * 2 + 1) g) :
    ∃ w', Step (· ∈ readFds) w (.inserted caller fd) w' ∧
      Follows readFds { s with fdPoll := t' } w' := by
  rw [h.saved_eq hpc] at hsaved
  obtain rfl := List.head?_eq_none_iff.mp hsaved
  have hindex : s.index < t'.slots := by
    have hlt := h.index
    rw [h.pool.chained.slots] at hlt
    rw [hpool.chained.slots, max, toNat_newMax h.pool.mask]
    omega
  refine h.inserts hpc hpool fresh held others members hindex (List.append_nil _).symm rfl ?_ ?_
  · rintro q (hq | ⟨j, hj, hq⟩)
    · exact absurd hq List.not_mem_nil
    · -- the entry moves to a bucket that is not earlier than its old one
      obtain ⟨g, temporary, -, hd⟩ := h.pool.holds q ⟨j, hq⟩
      have hg := fdOf_of_data hd
      obtain ⟨j', hj'⟩ := (members q).mpr (Or.inl ⟨j, hq⟩)
      have hg' := (others q (ne_of_mem_of_not_mem hq (fresh j))).trans hg
      have hle := h.pool.bucketIn_le g
      rw [← h.pool.mem_bucket hq hg, ← max, ← hpool.mem_bucket hj' hg'] at hle
      exact Or.inr ⟨j', hj.trans_le hle, hj'⟩
  · rintro q g (hq | ⟨j, hj, hq⟩) heq hg
    · exact absurd hq List.not_mem_nil
    · refine absurd (Or.inl ?_) (hkeeps g hg ?_)
      · rw [← max, ← hpool.mem_bucket hq heq]
        exact hj
      · rcases eq_or_ne q p with rfl | hne
        · exact Or.inl (Option.some.inj (heq.symm.trans held))
        · have hold := ((members q).mp ⟨j, hq⟩).resolve_right hne
          rw [others q hne] at heq
          rw [h.pool.entryOf_eq_some hold heq]
          exact Or.inr nofun

/-- The addition of a file descriptor. -/
theorem Tracks.adds (h : Tracks readFds s w chain recycled pre suf)
    (hpc : s.pc = .inCallback caller next) (hvalid : ValidFd fd)
    (hpool : Pool t' chain' recycled') (hadds : Adds s.fdPoll chain fd t' chain')
    (hkeeps : entryOf s.fdPoll fd = none → InsertKeepsWalk s fd) :
    ∃ w', Step (· ∈ readFds) w (.inserted caller fd) w' ∧
      Follows readFds { s with fdPoll := t' } w' := by
  cases hadds with
  | @replaced p stored held max fds =>
      have hpresent : fdsOf t' (Stored chain) = fdsOf s.fdPoll (Stored chain) :=
        fdsOf_congr (fun _ => Iff.rfl) fun q _ => fds q
      have hahead : fdsOf t' (Coming chain s.index suf) = w.ahead := by
        rw [h.ahead]
        exact fdsOf_congr (fun _ => Iff.rfl) fun q _ => fds q
      have hmember : insert fd w.present = w.present := by
        rw [h.present]
        exact Set.insert_eq_of_mem ⟨p, stored, held⟩
      have hstep : Step (· ∈ readFds) w (.inserted caller fd)
          { w with present := insert fd w.present, ahead := w.ahead } := by
        refine .insert subset_rfl ?_ fun g hg => Or.inl hg
        rw [hmember, h.present, h.ahead]
        exact fun g ⟨q, hq, heq⟩ => ⟨q, hq.stored h.cut, heq⟩
      exact ⟨_, hstep, chain, recycled', pre, suf, hpool, h.readFds, h.called,
        by rw [hpresent, hmember, h.present], hahead.symm, h.slots hpool max, h.cut, h.position⟩
  | @inserted p missing fresh room max held others =>
      have hguard := hkeeps (h.pool.entryOf_eq_none hvalid missing)
      rw [InsertKeepsWalk, if_pos room] at hguard
      exact h.adds_roomy hpc hpool fresh max held others hguard
  | grown missing fresh full max held others members =>
      have hguard := hkeeps (h.pool.entryOf_eq_none hvalid missing)
      rw [InsertKeepsWalk, if_neg (by rw [full]; exact UInt32.lt_irrefl _)] at hguard
      exact h.adds_grown hpc hpool fresh max held others members hguard.1 hguard.2

theorem eventOf_rejected {code : BliveErrno} (hcode : code ≠ .ok) :
    eventOf (.call c, .called caller code) = .quiet := by
  cases c <;> cases code <;> first | rfl | exact absurd rfl hcode

/-- Only a running callback makes calls. -/
theorem call_eq_some (hcall : s.call c = some (obs, s')) :
    ∃ caller next code t', s.pc = .inCallback caller next ∧ c.run s.fdPoll = some (code, t') ∧
      obs = .called caller code ∧ s' = { s with fdPoll := t' } := by
  unfold Round.call at hcall
  split at hcall
  next caller next hpc =>
    obtain ⟨⟨code, t'⟩, hrun, heq⟩ := Option.map_eq_some_iff.mp hcall
    obtain ⟨rfl, rfl⟩ := Prod.mk.inj heq
    exact ⟨caller, next, code, t', hpc, hrun, rfl, rfl⟩
  next => exact absurd hcall nofun

/-- Every allowed call of a callback is a step of the walk. -/
theorem Tracks.call (h : Tracks readFds s w chain recycled pre suf)
    (hcontract : c.Contract s.fdPoll) (hkeeps : KeepsWalk s (.call c, obs))
    (hcall : s.call c = some (obs, s')) :
    ∃ w', Step (· ∈ readFds) w (eventOf (.call c, obs)) w' ∧ Follows readFds s' w' := by
  obtain ⟨caller, next, code, t', hpc, hrun, rfl, rfl⟩ := call_eq_some hcall
  obtain ⟨chain', recycled', hpool, hcalls⟩ := h.pool.call hcontract hrun
  cases hcalls with
  | rejected failed =>
      rw [eventOf_rejected failed]
      exact ⟨w, .quiet, chain, recycled, pre, suf, h⟩
  | added valid allocated hadds => exact h.adds hpc valid hpool hadds (hkeeps valid.1 allocated)
  | deleted valid hdeletes => exact h.deletes hpc hpool hdeletes hkeeps

end BliveQueue.FdPool
