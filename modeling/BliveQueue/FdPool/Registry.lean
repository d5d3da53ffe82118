/-
# The pool as a registry of file descriptors

Two file descriptors never share a key, so the pool holds at most one entry for each.
Every call and every removal of a temporary file descriptor changes the entry of one
file descriptor, and keeps the table well formed and below its load limit.
-/

import Mathlib.Data.List.TakeWhile
import Mathlib.Data.Nat.Bitwise
import BliveQueue.Hash.Expansion
import BliveQueue.Hash.Operations
import BliveQueue.Utils.FdPool

namespace BliveQueue.FdPool

open BliveQueue.Hash BliveQueue.Utils BliveQueue.Utils.FdPool BliveQueue.Utils.Hash
open BliveQueue.Utils.Select

/-! ## Keys -/

/-- What `select_engine_fd_add_*` accept. -/
def ValidFd (fd : Fd) : Prop := 0 ≤ fd ∧ fd < 2 ^ 31

theorem isDigit_toUInt8 {c : Char} (hc : c.isDigit = true) :
    isDigit c.toNat.toUInt8 = true ∧ c.toNat.toUInt8.toNat = c.toNat ∧ 48 ≤ c.toNat := by
  have hrange : 48 ≤ c.toNat ∧ c.toNat ≤ 57 := by
    simpa [Char.isDigit, UInt32.le_iff_toNat_le] using hc
  have hbyte : c.toNat.toUInt8.toNat = c.toNat := by
    change c.toNat % 256 = c.toNat
    omega
  refine ⟨?_, hbyte, hrange.1⟩
  simp only [isDigit, Bool.and_eq_true, decide_eq_true_eq, UInt8.le_iff_toNat_le, hbyte]
  exact hrange

theorem not_isSpace_of_isDigit {c : UInt8} (hc : isDigit c = true) : isSpace c = false := by
  simp only [isDigit, Bool.and_eq_true, decide_eq_true_eq, UInt8.le_iff_toNat_le] at hc
  simp only [isSpace, Bool.or_eq_false_iff, Bool.and_eq_false_imp, decide_eq_true_eq,
    decide_eq_false_iff_not, UInt8.le_iff_toNat_le, ← UInt8.toNat_inj]
  have h48 : (48 : UInt8).toNat = 48 := rfl
  have h32 : (32 : UInt8).toNat = 32 := rfl
  have h13 : (13 : UInt8).toNat = 13 := rfl
  omega

/-- Reading digits is what the decimal notation of numbers inverts. -/
theorem foldl_digits (l : List Char) (hl : ∀ c ∈ l, c.isDigit = true) (n : ℕ) :
    (l.map fun c => c.toNat.toUInt8).foldl (fun (n : ℤ) c => 10 * n + (c.toNat - 48)) n =
      (Nat.ofDigitChars 10 l n : ℕ) := by
  induction l generalizing n with
  | nil => simp
  | cons c l ih =>
      obtain ⟨-, hbyte, hle⟩ := isDigit_toUInt8 (hl c List.mem_cons_self)
      have hzero : '0'.toNat = 48 := rfl
      have hcast :
          (10 * (n : ℤ) + (c.toNat - 48)) = ((10 * n + (c.toNat - '0'.toNat) : ℕ) : ℤ) := by
        omega
      rw [List.map_cons, List.foldl_cons, hbyte, hcast, Nat.ofDigitChars_cons]
      exact ih (fun d hd => hl d (List.mem_cons_of_mem c hd)) _

/-- The key of a file descriptor is its digits. -/
theorem fdKey_eq {fd : Fd} (h : ValidFd fd) :
    fdKey fd = (Nat.toDigits 10 fd.natAbs).map fun c => c.toNat.toUInt8 := by
  have hlength : (Nat.toDigits 10 fd.natAbs).length ≤ 30 := by
    apply (Nat.length_toDigits_le_iff (by decide) (by decide)).mpr
    have hlt : fd.natAbs < 2 ^ 31 := by
      rw [← Int.ofNat_lt, Int.natAbs_of_nonneg h.1]
      exact h.2
    exact hlt.trans (by decide)
  rw [fdKey, decimal, if_neg (not_lt.mpr h.1)]
  exact List.take_of_length_le (by simpa using hlength)

theorem isDigit_of_mem_toDigits {n : ℕ} {c : Char} (hc : c ∈ Nat.toDigits 10 n) :
    c.isDigit = true :=
  Nat.isDigit_of_mem_toDigits (by decide) (by decide) hc

theorem isDigit_of_mem_fdKey {fd : Fd} (h : ValidFd fd) {b : UInt8} (hb : b ∈ fdKey fd) :
    isDigit b = true := by
  rw [fdKey_eq h, List.mem_map] at hb
  obtain ⟨c, hc, rfl⟩ := hb
  exact (isDigit_toUInt8 (isDigit_of_mem_toDigits hc)).1

/-- The keys of the pool are admissible. -/
theorem fdKey_admissible {fd : Fd} (h : ValidFd fd) : 0 ∉ fdKey fd ∧ (fdKey fd).length ≤ 30 := by
  refine ⟨fun hzero => ?_, List.length_take_le 30 _⟩
  exact absurd (isDigit_of_mem_fdKey h hzero) (by decide)

theorem atoi_fdKey {fd : Fd} (h : ValidFd fd) : atoi (fdKey fd) = fd := by
  have hbytes := fun b (hb : b ∈ fdKey fd) => isDigit_of_mem_fdKey h hb
  have hvalue : digitsValue (fdKey fd) = fd := by
    rw [digitsValue, List.takeWhile_eq_self_iff.mpr hbytes, fdKey_eq h]
    have hfold := foldl_digits (Nat.toDigits 10 fd.natAbs) (fun _ => isDigit_of_mem_toDigits) 0
    rw [Nat.ofDigitChars_ten_toDigits] at hfold
    exact hfold.trans (Int.natAbs_of_nonneg h.1)
  have hspace : (fdKey fd).dropWhile isSpace = fdKey fd := by
    cases hk : fdKey fd with
    | nil => rfl
    | cons b l =>
        have hb := not_isSpace_of_isDigit (hbytes b (by simp [hk]))
        rw [List.dropWhile_cons_of_neg (by simp [hb])]
  rw [atoi, hspace]
  split
  next s hk => exact absurd (hbytes 45 (by simp [hk])) (by decide)
  next s hk => exact absurd (hbytes 43 (by simp [hk])) (by decide)
  next => exact hvalue

theorem fdKey_inj {fd fd' : Fd} (h : ValidFd fd) (h' : ValidFd fd') (heq : fdKey fd = fdKey fd') :
    fd = fd' := by
  rw [← atoi_fdKey h, heq, atoi_fdKey h']

/-! ## The pool -/

variable {t t' : FdPoll} {chain chain' : ℕ → List EntryPtr} {recycled : List EntryPtr}
variable {i : ℕ} {p q : EntryPtr} {fd : Fd}

/-- The data of an entry that watches `fd`. -/
def fdData (fd : Fd) (temporary : Bool) : EntryData EngineFd :=
  ⟨fdPollHashFunc (fdKey fd), fdKey fd, some ⟨fd, temporary⟩⟩

/-- The file descriptor that an entry watches. -/
def fdOf (t : FdPoll) (p : EntryPtr) : Option Fd :=
  ((dataOf t.entry p).bind EntryData.value).map EngineFd.fd

/-- The bucket of a file descriptor. -/
def bucketIn (max : UInt32) (fd : Fd) : ℕ := HashT.bucketIndex (fdPollHashFunc (fdKey fd)) max

def Stored (chain : ℕ → List EntryPtr) (p : EntryPtr) : Prop := ∃ i, p ∈ chain i

/-- A table whose entries watch different file descriptors, each under its own key. -/
structure Pool (t : FdPoll) (chain : ℕ → List EntryPtr) (recycled : List EntryPtr) : Prop where
  chained : Chained t chain recycled
  hashFunc : t.hashFunc = fdPollHashFunc
  holds : ∀ p, Stored chain p →
    ∃ fd temporary, ValidFd fd ∧ dataOf t.entry p = some (fdData fd temporary)
  distinct : ∀ p q fd, Stored chain p → Stored chain q → fdOf t p = some fd →
    fdOf t q = some fd → p = q
  load : t.count.toNat ≤ t.max.toNat
  mask : ∃ k ≤ 31, t.max.toNat + 1 = 2 ^ k

theorem fdOf_of_data {temporary : Bool} (h : dataOf t.entry p = some (fdData fd temporary)) :
    fdOf t p = some fd := by
  simp [fdOf, h, fdData]

theorem Pool.bucketOf_eq (h : Pool t chain recycled) (fd : Fd) :
    bucketOf t (fdKey fd) = bucketIn t.max fd := by
  rw [bucketOf, h.hashFunc, bucketIn]

theorem Pool.held (h : Pool t chain recycled) (hp : Stored chain p) (hfd : fdOf t p = some fd) :
    ValidFd fd ∧ ∃ temporary, dataOf t.entry p = some (fdData fd temporary) := by
  obtain ⟨fd', temporary, hvalid, hd⟩ := h.holds p hp
  obtain rfl := Option.some.inj (hfd.symm.trans (fdOf_of_data hd))
  exact ⟨hvalid, temporary, hd⟩

/-- An entry stands in the bucket of its file descriptor. -/
theorem Pool.mem_bucket (h : Pool t chain recycled) (hp : p ∈ chain i) (hfd : fdOf t p = some fd) :
    i = bucketIn t.max fd := by
  obtain ⟨-, temporary, hd⟩ := h.held ⟨i, hp⟩ hfd
  obtain ⟨d, hd', -, hbucket⟩ := h.chained.stored i p hp
  obtain rfl := Option.some.inj (hd.symm.trans hd')
  exact hbucket.symm

theorem Pool.matches_iff (h : Pool t chain recycled) (hp : Stored chain p) (hfd : ValidFd fd) :
    Matches t (fdKey fd) p ↔ fdOf t p = some fd := by
  obtain ⟨fd', temporary, hvalid, hd⟩ := h.holds p hp
  rw [fdOf_of_data hd]
  constructor
  · rintro ⟨d, hd', -, hkey⟩
    obtain rfl := Option.some.inj (hd.symm.trans hd')
    rw [fdKey_inj hvalid hfd hkey]
  · intro heq
    obtain rfl := Option.some.inj heq
    exact ⟨_, hd, by rw [h.hashFunc]; rfl, rfl⟩

/-- No entry of the bucket matches the key of a file descriptor that no entry watches. -/
theorem Pool.not_watched (h : Pool t chain recycled) (hfd : ValidFd fd)
    (missing : ∀ q ∈ chain (bucketOf t (fdKey fd)), ¬ Matches t (fdKey fd) q) :
    ∀ q, Stored chain q → fdOf t q ≠ some fd := by
  rintro q ⟨i, hq⟩ heq
  obtain rfl := h.mem_bucket hq heq
  rw [h.bucketOf_eq] at missing
  exact missing q hq ((h.matches_iff ⟨_, hq⟩ hfd).mpr heq)

theorem fdOf_update {d : EntryData EngineFd}
    (h : dataOf t'.entry = Function.update (dataOf t.entry) p (some d)) (hne : q ≠ p) :
    fdOf t' q = fdOf t q := by
  rw [fdOf, fdOf, h, Function.update_of_ne hne]

/-! ## Removal -/

/-- What the removal of a file descriptor does to the pool. -/
inductive Deletes (t : FdPoll) (chain : ℕ → List EntryPtr) (fd : Fd) :
    FdPoll → (ℕ → List EntryPtr) → Prop
  | absent (missing : ∀ q, Stored chain q → fdOf t q ≠ some fd) : Deletes t chain fd t chain
  | removed {t' : FdPoll} {i : ℕ} {p : EntryPtr} (stored : p ∈ chain i)
      (held : fdOf t p = some fd) (max : t'.max = t.max)
      (others : ∀ q, q ≠ p → fdOf t' q = fdOf t q) :
      Deletes t chain fd t' (Function.update chain i ((chain i).erase p))

theorem stored_erase (h : Chained t chain recycled) (hp : p ∈ chain i) :
    Stored (Function.update chain i ((chain i).erase p)) q ↔ Stored chain q ∧ q ≠ p := by
  simp only [Stored, h.mem_update_erase hp, exists_and_right]

/-- A removal under any key leaves a pool. -/
theorem Pool.of_pops (h : Pool t chain recycled) {key : CString} {ret : Option EngineFd}
    {recycled' : List EntryPtr} (hpops : Pops t chain key ret t' chain')
    (hchained : Chained t' chain' recycled') : Pool t' chain' recycled' := by
  cases hpops with
  | absent missing => exact { h with chained := hchained }
  | @removed _ p d hp hit held same count data =>
      have hothers : ∀ q, q ≠ p → fdOf t' q = fdOf t q := fun q hne => fdOf_update data hne
      refine ⟨hchained, same.hashFunc.trans h.hashFunc, ?_, ?_, ?_, ?_⟩
      · intro q hq
        obtain ⟨hold, hne⟩ := (stored_erase h.chained hp).mp hq
        rw [data, Function.update_of_ne hne]
        exact h.holds q hold
      · intro q r fd' hq hr hqfd hrfd
        obtain ⟨hqold, hqne⟩ := (stored_erase h.chained hp).mp hq
        obtain ⟨hrold, hrne⟩ := (stored_erase h.chained hp).mp hr
        rw [hothers q hqne] at hqfd
        rw [hothers r hrne] at hrfd
        exact h.distinct q r fd' hqold hrold hqfd hrfd
      · rw [same.max]
        have hload := h.load
        omega
      · rw [same.max]
        exact h.mask

theorem Pool.hashPop (h : Pool t chain recycled) (hfd : ValidFd fd) :
    ∃ ret t' chain' recycled', t.hashPop (fdKey fd) = some (ret, t') ∧
      Deletes t chain fd t' chain' ∧ Pool t' chain' recycled' := by
  obtain ⟨ret, t', chain', recycled', hpop, hpops, hchained⟩ := h.chained.hashPop (fdKey fd)
  refine ⟨ret, t', chain', recycled', hpop, ?_, h.of_pops hpops hchained⟩
  cases hpops with
  | absent missing => exact .absent (h.not_watched hfd missing)
  | @removed _ p d hp hit held same count data =>
      exact .removed hp ((h.matches_iff ⟨_, hp⟩ hfd).mp hit) same.max
        fun q hne => fdOf_update data hne

/-! ## Addition -/

/-- What the addition of a file descriptor does to the pool. -/
inductive Adds (t : FdPoll) (chain : ℕ → List EntryPtr) (fd : Fd) :
    FdPoll → (ℕ → List EntryPtr) → Prop
  | replaced {t' : FdPoll} {p : EntryPtr} (stored : Stored chain p) (held : fdOf t p = some fd)
      (max : t'.max = t.max) (fds : ∀ q, fdOf t' q = fdOf t q) : Adds t chain fd t' chain
  | inserted {t' : FdPoll} {p : EntryPtr} (missing : ∀ q, Stored chain q → fdOf t q ≠ some fd)
      (fresh : ∀ j, p ∉ chain j) (room : t.count < t.max) (max : t'.max = t.max)
      (held : fdOf t' p = some fd) (others : ∀ q, q ≠ p → fdOf t' q = fdOf t q) :
      Adds t chain fd t' (Function.update chain (bucketIn t.max fd)
        (chain (bucketIn t.max fd) ++ [p]))
  | grown {t' : FdPoll} {p : EntryPtr} {chain' : ℕ → List EntryPtr}
      (missing : ∀ q, Stored chain q → fdOf t q ≠ some fd) (fresh : ∀ j, p ∉ chain j)
      (full : t.count = t.max) (max : t'.max = t.max * 2 + 1)
      (held : fdOf t' p = some fd) (others : ∀ q, q ≠ p → fdOf t' q = fdOf t q)
      (members : ∀ q, Stored chain' q ↔ Stored chain q ∨ q = p) : Adds t chain fd t' chain'

theorem stored_concat :
    Stored (Function.update chain i (chain i ++ [p])) q ↔ Stored chain q ∨ q = p := by
  simp only [Stored, mem_update_concat, exists_or, exists_eq_left]

/-- The pool with one more entry, wherever it stands. -/
theorem Pool.of_inserted (h : Pool t chain recycled) (hfd : ValidFd fd) {temporary : Bool}
    {recycled' : List EntryPtr} (hchained : Chained t' chain' recycled')
    (missing : ∀ q, Stored chain q → fdOf t q ≠ some fd)
    (members : ∀ q, Stored chain' q ↔ Stored chain q ∨ q = p) (fresh : ∀ j, p ∉ chain j)
    (hashFunc : t'.hashFunc = fdPollHashFunc)
    (data : dataOf t'.entry = Function.update (dataOf t.entry) p (some (fdData fd temporary)))
    (load : t'.count.toNat ≤ t'.max.toNat) (mask : ∃ k ≤ 31, t'.max.toNat + 1 = 2 ^ k) :
    Pool t' chain' recycled' := by
  have hp : dataOf t'.entry p = some (fdData fd temporary) := by rw [data, Function.update_self]
  have hne : ∀ q, Stored chain q → q ≠ p := by
    rintro q ⟨j, hj⟩ rfl
    exact fresh j hj
  refine ⟨hchained, hashFunc, fun q hq => ?_, fun q r fd' hq hr hqfd hrfd => ?_, load, mask⟩
  · rcases (members q).mp hq with hold | rfl
    · rw [data, Function.update_of_ne (hne q hold)]
      exact h.holds q hold
    · exact ⟨fd, temporary, hfd, hp⟩
  · -- the new entry watches a file descriptor that no old entry watches
    rcases (members q).mp hq with hqold | rfl <;> rcases (members r).mp hr with hrold | rfl
    · rw [fdOf_update data (hne q hqold)] at hqfd
      rw [fdOf_update data (hne r hrold)] at hrfd
      exact h.distinct q r fd' hqold hrold hqfd hrfd
    · rw [fdOf_of_data hp] at hrfd
      rw [fdOf_update data (hne q hqold), ← hrfd] at hqfd
      exact absurd hqfd (missing q hqold)
    · rw [fdOf_of_data hp] at hqfd
      rw [fdOf_update data (hne r hrold), ← hqfd] at hrfd
      exact absurd hrfd (missing r hrold)
    · rfl

/-- A larger table never puts a file descriptor into an earlier bucket. -/
theorem Pool.bucketIn_le (h : Pool t chain recycled) (fd : Fd) :
    bucketIn t.max fd ≤ bucketIn (t.max * 2 + 1) fd := by
  have hnew := toNat_newMax h.mask
  obtain ⟨k, hk, hmask⟩ := h.mask
  have hold : t.max.toNat = 2 ^ k - 1 := by omega
  have hdouble : (t.max * 2 + 1).toNat = 2 ^ (k + 1) - 1 := by
    rw [hnew, hold, pow_succ]
    have hpos := Nat.two_pow_pos k
    omega
  rw [bucketIn, bucketIn, HashT.bucketIndex, HashT.bucketIndex, UInt32.toNat_and, UInt32.toNat_and,
    hold, hdouble, Nat.and_two_pow_sub_one_eq_mod, Nat.and_two_pow_sub_one_eq_mod,
    ← Nat.mod_mod_of_dvd _ (pow_dvd_pow 2 (Nat.le_succ k))]
  exact Nat.mod_le _ _

theorem Pool.count_lt (h : Pool t chain recycled) : t.count.toNat + 1 < 2 ^ 32 := by
  have hlt := lt_of_mask h.mask
  have hload := h.load
  omega

/-- The pool after a value is replaced. -/
theorem Pool.replaced (h : Pool t chain recycled) {recycled' : List EntryPtr}
    (hchained : Chained t' chain recycled') (hp : Stored chain p) (hfd : fdOf t p = some fd)
    {d : EntryData EngineFd} (hd : dataOf t.entry p = some d) (same : SameShape t t')
    (count : t'.count = t.count) {temporary : Bool}
    (data : dataOf t'.entry =
      Function.update (dataOf t.entry) p (some { d with value := some ⟨fd, temporary⟩ })) :
    (∀ q, fdOf t' q = fdOf t q) ∧ Pool t' chain recycled' := by
  obtain ⟨hvalid, old, hd'⟩ := h.held hp hfd
  obtain rfl := Option.some.inj (hd.symm.trans hd')
  have hnew : dataOf t'.entry p = some (fdData fd temporary) := by
    rw [data, Function.update_self]
    rfl
  have hfds : ∀ q, fdOf t' q = fdOf t q := by
    intro q
    rcases eq_or_ne q p with rfl | hne
    · rw [hfd, fdOf_of_data hnew]
    · exact fdOf_update data hne
  refine ⟨hfds, hchained, same.hashFunc.trans h.hashFunc, fun q hq => ?_,
    fun q r fd' hq hr => ?_, ?_, ?_⟩
  · rcases eq_or_ne q p with rfl | hne
    · exact ⟨fd, temporary, hvalid, hnew⟩
    · rw [data, Function.update_of_ne hne]
      exact h.holds q hq
  · rw [hfds, hfds]
    exact h.distinct q r fd' hq hr
  · rw [count, same.max]
    exact h.load
  · rw [same.max]
    exact h.mask

theorem Pool.hashPush (h : Pool t chain recycled) (hfd : ValidFd fd) {temporary : Bool}
    {mem : Option EntryPtr} {arrayMem : Bool} (hmem : ∀ q, mem = some q → t.entry q = none)
    {r : Option EngineFd × FdPoll}
    (hpush : t.hashPush (fdKey fd) ⟨fd, temporary⟩ mem arrayMem = some r) :
    ∃ chain' recycled', Adds t chain fd r.2 chain' ∧ Pool r.2 chain' recycled' := by
  obtain ⟨ret, t', chain', recycled', hgrown, hpushes, hchained⟩ :=
    h.chained.hashPush hmem h.count_lt hpush
  have hload := h.load
  cases hpushes with
  | @replaced _ p d stored hit held same count data =>
      have hpfd := (h.matches_iff ⟨_, stored⟩ hfd).mp hit
      obtain ⟨hfds, hpool⟩ := h.replaced hchained ⟨_, stored⟩ hpfd held same count data
      have hkept : t'.count.toNat ≤ t'.max.toNat := by
        rw [count, same.max]
        exact hload
      rw [grown_of_le hkept] at hgrown
      obtain rfl := Option.some.inj hgrown
      exact ⟨chain, recycled', .replaced ⟨_, stored⟩ hpfd same.max hfds, hpool⟩
  | @inserted _ p missing fresh same count data =>
      have hnone := h.not_watched hfd missing
      have hdata : dataOf t'.entry =
          Function.update (dataOf t.entry) p (some (fdData fd temporary)) := by
        rw [data, h.hashFunc, storedKey, fdKey, List.take_take, fdData, fdKey]
        rfl
      have hp : fdOf t' p = some fd := fdOf_of_data (by rw [hdata, Function.update_self])
      have hothers : ∀ q, q ≠ p → fdOf t' q = fdOf t q := fun q hne => fdOf_update hdata hne
      have hcount : t'.count.toNat = t.count.toNat + 1 := by
        rw [count, UInt32.toNat_add]
        exact Nat.mod_eq_of_lt h.count_lt
      rw [h.bucketOf_eq] at hchained
      by_cases hroom : t.count < t.max
      · have hkept : t'.count.toNat ≤ t'.max.toNat := by
          rw [hcount, same.max]
          exact UInt32.lt_iff_toNat_lt.mp hroom
        rw [grown_of_le hkept] at hgrown
        obtain rfl := Option.some.inj hgrown
        refine ⟨_, recycled', .inserted hnone fresh hroom same.max hp hothers, ?_⟩
        refine h.of_inserted hfd hchained hnone (fun q => stored_concat) fresh
          (same.hashFunc.trans h.hashFunc) hdata hkept ?_
        rw [same.max]
        exact h.mask
      · have hfull : t.count = t.max :=
          UInt32.toNat_inj.mp (le_antisymm hload (not_lt.mp hroom))
        have hgrows : t'.max.toNat < t'.count.toNat := by
          rw [hcount, same.max, hfull]
          exact Nat.lt_succ_self _
        rw [grown_of_lt hgrows] at hgrown
        obtain ⟨t'', hexpand, rfl⟩ := Option.map_eq_some_iff.mp hgrown
        have hstored : p ∈ Function.update chain (bucketIn t.max fd)
            (chain (bucketIn t.max fd) ++ [p]) (bucketIn t.max fd) := by simp
        obtain ⟨hslots, chain'', hexpands, hchained'⟩ :=
          hchained.expandArray_of_some hstored hexpand
        rw [same.max] at hslots
        have hmax : t''.max = t.max * 2 + 1 := by rw [hexpands.max, same.max]
        have hfds : ∀ q, fdOf t'' q = fdOf t' q := fun q => by rw [fdOf, fdOf, hexpands.data]
        have hmembers : ∀ q, Stored chain'' q ↔ Stored chain q ∨ q = p :=
          fun q => (hexpands.members q).trans stored_concat
        refine ⟨chain'', recycled', .grown hnone fresh hfull hmax ((hfds p).trans hp)
          (fun q hne => (hfds q).trans (hothers q hne)) hmembers, ?_⟩
        refine h.of_inserted hfd hchained' hnone hmembers fresh
          ((hexpands.hashFunc.trans same.hashFunc).trans h.hashFunc)
          (hexpands.data.trans hdata) ?_ ?_
        · rw [hexpands.count, hcount, hmax, toNat_newMax h.mask]
          omega
        · rw [hmax]
          exact mask_newMax h.mask hslots

/-! ## Calls -/

variable {c : PoolCall} {code : BliveErrno}

/-- What a call of the engine's interface does to the pool. -/
inductive Calls (t : FdPoll) (chain : ℕ → List EntryPtr) :
    PoolCall → BliveErrno → FdPoll → (ℕ → List EntryPtr) → Prop
  | rejected {c : PoolCall} {code : BliveErrno} (failed : code ≠ .ok) : Calls t chain c code t chain
  | added {fd : Fd} {temporary : Bool} {mem : PoolMem} {t' : FdPoll} {chain' : ℕ → List EntryPtr}
      (valid : ValidFd fd) (allocated : mem.engineFd = true) (adds : Adds t chain fd t' chain') :
      Calls t chain (.add fd temporary mem) .ok t' chain'
  | deleted {fd : Fd} {t' : FdPoll} {chain' : ℕ → List EntryPtr} (valid : ValidFd fd)
      (deletes : Deletes t chain fd t' chain') : Calls t chain (.del fd) .ok t' chain'

theorem run_add (t : FdPoll) (fd : Fd) (temporary : Bool) (mem : PoolMem) :
    (PoolCall.add fd temporary mem).run t = selectEngineFdAdd t fd temporary mem := by
  cases temporary <;> rfl

theorem Pool.engineFdAdd (h : Pool t chain recycled) (hfd : ValidFd fd) {temporary : Bool}
    {mem : PoolMem} (hmem : PoolCall.Fresh t mem)
    (hadd : engineFdAdd t fd temporary mem = some (code, t')) :
    ∃ chain' recycled', Pool t' chain' recycled' ∧
      Calls t chain (.add fd temporary mem) code t' chain' := by
  unfold Utils.FdPool.engineFdAdd at hadd
  split at hadd
  · rename_i hallocated
    obtain ⟨r, hpush, hr⟩ := Option.map_eq_some_iff.mp hadd
    obtain ⟨rfl, rfl⟩ := Prod.mk.inj hr
    have hfresh : ∀ q, mem.entry = some q → t.entry q = none := by
      intro q hq
      simpa [PoolCall.Fresh, hq] using hmem
    obtain ⟨chain', recycled', hadds, hpool⟩ := h.hashPush hfd hfresh hpush
    exact ⟨chain', recycled', hpool, .added hfd hallocated hadds⟩
  · obtain ⟨rfl, rfl⟩ := Prod.mk.inj (Option.some.inj hadd)
    exact ⟨chain, recycled, h, .rejected (by decide)⟩

theorem Pool.call (h : Pool t chain recycled) (hcontract : c.Contract t)
    (hrun : c.run t = some (code, t')) :
    ∃ chain' recycled', Pool t' chain' recycled' ∧ Calls t chain c code t' chain' := by
  cases c with
  | add fd temporary mem =>
      rw [run_add, selectEngineFdAdd] at hrun
      split at hrun
      · obtain ⟨rfl, rfl⟩ := Prod.mk.inj (Option.some.inj hrun)
        exact ⟨chain, recycled, h, .rejected (by decide)⟩
      · exact h.engineFdAdd ⟨not_lt.mp ‹_›, hcontract.1⟩ hcontract.2 hrun
  | del fd =>
      rw [PoolCall.run, selectEngineFdDel] at hrun
      split at hrun
      · obtain ⟨rfl, rfl⟩ := Prod.mk.inj (Option.some.inj hrun)
        exact ⟨chain, recycled, h, .rejected (by decide)⟩
      · have hfd : ValidFd fd := ⟨not_lt.mp ‹_›, hcontract⟩
        obtain ⟨ret, t'', chain', recycled', hpop, hdeletes, hpool⟩ := h.hashPop hfd
        rw [engineFdDel, hpop] at hrun
        obtain ⟨rfl, rfl⟩ := by simpa using hrun
        exact ⟨chain', recycled', hpool, .deleted hfd hdeletes⟩

/-! ## Reachable tables -/

/-- The pool before `select_engine_create` adds the pipe. -/
def emptyPool : FdPoll where
  array := fun _ => none
  slots := 256
  count := 0
  max := 255
  hashFunc := fdPollHashFunc
  free := none
  entry := fun _ => none

theorem hashCreate_pool : HashT.hashCreate 100 (some fdPollHashFunc) = some emptyPool := by
  rfl

theorem pool_empty : Pool emptyPool (fun _ => []) [] := by
  refine ⟨⟨rfl, fun _ _ => rfl, fun _ _ => rfl, rfl, fun _ => List.nodup_nil, List.nodup_nil,
    nofun, nofun, ⟨∅, by simp, rfl⟩⟩, rfl, ?_, ?_, Nat.zero_le _, ⟨8, by decide, rfl⟩⟩
  · rintro p ⟨i, hi⟩
    exact absurd hi List.not_mem_nil
  · rintro p q fd ⟨i, hi⟩
    exact absurd hi List.not_mem_nil

/-- Every table that calls can produce is well formed. -/
theorem pool_of_reachable (h : Reachable t) : ∃ chain recycled, Pool t chain recycled := by
  obtain ⟨history, run⟩ := h
  refine Math.System.Run.invariant (I := fun _ t => ∃ chain recycled, Pool t chain recycled)
    ?_ ?_ run
  · rintro t ⟨manageFd, mem, code, hnonneg, hlt, hcreate⟩
    rw [createPool, hashCreate_pool] at hcreate
    have hfresh : PoolCall.Fresh emptyPool mem := by
      unfold PoolCall.Fresh
      split
      · trivial
      · rfl
    obtain ⟨chain, recycled, hpool, -⟩ := pool_empty.engineFdAdd ⟨hnonneg, hlt⟩ hfresh hcreate
    exact ⟨chain, recycled, hpool⟩
  · rintro _ t ⟨c, code⟩ t' _ ⟨chain, recycled, hpool⟩ - ⟨hcontract, hrun⟩
    obtain ⟨chain', recycled', hpool', -⟩ := hpool.call hcontract hrun
    exact ⟨chain', recycled', hpool'⟩

end BliveQueue.FdPool
