/-
# Which newcomers are let in

`qlist_append` compares the newcomer with the front by `<`, with the tail and the
units of the window by `>=`, and with the end of the window by `>`. A newcomer
whose weight ties with the front passes none of these tests when everything the
search meets is lighter: the front is not tested for a tie, and the insertion
gives up although memory was available. This module finds, for every reachable
queue, ordered or not, exactly the requests that are served.
-/

import BliveQueue.QList.Lookups

namespace BliveQueue.QList

open BliveQueue.Math BliveQueue.Utils BliveQueue.Utils.QList

variable {q q' : BliveQlist} {s : Sequence} {new : Cell}

/-- The weight of the unit at an address. -/
def weightAt (q : BliveQlist) (a : Addr) : UInt32 := (q.unit a).data.weight

/-- The units behind the front that the search for a place of weight `w` covers:
a lighter remembered unit cuts it short. -/
def searched (q : BliveQlist) (w : UInt32) (rest : List Addr) : List Addr :=
  match q.tmpUnit with
  | none => rest
  | some t => if weightAt q t < w then rest.takeWhile (· ≠ t) else rest

/-- The front ties with `w`, the tail and everything the search covers is lighter,
and the remembered unit is not heavier. -/
def Refused (q : BliveQlist) (w : UInt32) : Prop :=
  match cycle q with
  | some (front :: rest) =>
    q.elemNum ≠ 0 ∧ weightAt q front = w ∧ weightAt q (rest.getLastD front) < w ∧
      (∀ t ∈ q.tmpUnit, weightAt q t ≤ w) ∧ ∀ a ∈ searched q w rest, weightAt q a < w
  | _ => False

instance (q : BliveQlist) (w : UInt32) : Decidable (Refused q w) := by
  unfold Refused
  split <;> infer_instance

/-- `qlist_search` finds the anchorage. -/
def Found (q : BliveQlist) (a : UInt32) : Prop :=
  (qlistAnchorageExistence q a).map Prod.fst = some true

/-- The number of units of an anchorage in the ring. -/
def copies (q : BliveQlist) (a : UInt32) : ℕ :=
  (((QList.ring q).getD []).map Prod.fst).count a

/-- The request for an anchorage is served: the call succeeds, and the ring then
holds the pair once and every other unit as before. -/
def Served (q : BliveQlist) (a : UInt32) (d : QlistUnitData) (mem : Addr) : Prop :=
  ∃ q', qlistAppendUpdate q a d (some mem) = some (.ok, q') ∧
    ∃ before front back, QList.ring q = some before ∧
      QList.ring q' = some (front ++ (a, d) :: back) ∧ a ∉ (front ++ back).map Prod.fst ∧
      dropAnchorage a before = front ++ back

theorem weightAt_addr (h : Represents q s) {c : Cell} (hc : c ∈ s.cells) :
    (weightAt q c.addr).toNat = c.weight := by
  rw [weightAt, h.stored c hc]
  rfl

/-- The units a lighter remembered unit leaves to the search. -/
theorem takeWhile_addr_eq {before behind : List Cell} {c : Cell}
    (hnodup : ((before ++ c :: behind).map Cell.addr).Nodup) :
    ((before ++ c :: behind).map Cell.addr).takeWhile (· ≠ c.addr) = before.map Cell.addr := by
  rw [List.map_append, List.map_cons] at hnodup ⊢
  have hout := (List.nodup_cons.mp (List.nodup_middle.mp hnodup)).1
  rw [List.takeWhile_append_of_pos, List.takeWhile_cons_of_neg (by simp), List.append_nil]
  intro a ha
  have hne : a ≠ c.addr := fun heq => hout (heq ▸ List.mem_append_left _ ha)
  simpa using hne

/-- What the scan of a window covers and where it ends, read off the memory. -/
theorem Represents.window_iff (h : Represents q s) {front : Cell} {rest : List Cell}
    (hcells : s.cells = front :: rest) (hfront : front.weight = new.weight) :
    ((∀ c ∈ (Sequence.window front rest s.tmp new).scanned, c.weight < new.weight) ∧
        (Sequence.window front rest s.tmp new).endUnit.weight ≤ new.weight) ↔
      (∀ t ∈ q.tmpUnit, weightAt q t ≤ new.unit.data.weight) ∧
        ∀ a ∈ searched q new.unit.data.weight (rest.map Cell.addr),
          weightAt q a < new.unit.data.weight := by
  have hweight : ∀ c ∈ s.cells, (weightAt q c.addr).toNat = c.weight := fun c => weightAt_addr h
  have hlight : ∀ l ⊆ s.cells, (∀ a ∈ l.map Cell.addr, weightAt q a < new.unit.data.weight) ↔
      ∀ c ∈ l, c.weight < new.weight := by
    intro l hl
    rw [List.forall_mem_map]
    apply forall₂_congr
    intro c hc
    rw [UInt32.lt_iff_toNat_lt, hweight c (hl hc)]
    rfl
  have hrest : rest ⊆ s.cells := fun c hc => hcells ▸ List.mem_cons_of_mem _ hc
  cases htmp : s.tmp with
  | none =>
      have hq : q.tmpUnit = none := h.tmp.trans htmp
      have hwin : Sequence.window front rest none new = ⟨[], front, rest, []⟩ := rfl
      rw [hwin, searched, hq, hlight rest hrest]
      simp [hfront.le]
  | some t =>
      have hq : q.tmpUnit = some t := h.tmp.trans htmp
      obtain ⟨c, hc, rfl⟩ := h.cached t htmp
      have hle : weightAt q c.addr ≤ new.unit.data.weight ↔ c.weight ≤ new.weight := by
        rw [UInt32.le_iff_toNat_le, hweight c hc]
        rfl
      have hlt : weightAt q c.addr < new.unit.data.weight ↔ c.weight < new.weight := by
        rw [UInt32.lt_iff_toNat_lt, hweight c hc]
        rfl
      obtain ⟨before, c', behind, hcut⟩ :
          ∃ before c' behind,
            Sequence.splitAt c.addr (front :: rest) = some (before, c', behind) := by
        cases hcut : Sequence.splitAt c.addr (front :: rest) with
        | none => exact absurd rfl (Sequence.splitAt_eq_none_iff.mp hcut c (hcells ▸ hc))
        | some cut => exact ⟨_, _, _, rfl⟩
      obtain ⟨hsplit, haddr⟩ := Sequence.splitAt_eq_some hcut
      obtain rfl : c' = c := h.eq_of_addr (hcells ▸ hsplit ▸ by simp) hc haddr
      have hwin : Sequence.window front rest (some c'.addr) new =
          if new.weight < c'.weight then ⟨before, c', behind, []⟩
          else if c'.weight < new.weight then ⟨[], front, before.tail ++ [c'], behind⟩
          else ⟨[], front, rest, []⟩ := by
        simp [Sequence.window, hcut]
      rw [hwin, searched, hq]
      simp only [Option.mem_def, Option.some.injEq, forall_eq', hle, hlt]
      rcases lt_trichotomy c'.weight new.weight with hless | heq | hmore
      · -- the remembered unit cuts the range short
        rw [if_neg hless.le.not_gt, if_pos hless, if_pos hless]
        obtain ⟨before, rfl⟩ : ∃ before', before = front :: before' := by
          cases before with
          | nil =>
              rw [(List.cons.inj hsplit).1] at hfront
              exact absurd hfront hless.ne
          | cons b before => exact ⟨before, by rw [(List.cons.inj hsplit).1]⟩
        obtain rfl : rest = before ++ c' :: behind := (List.cons.inj hsplit).2
        have hnodup := hcells ▸ h.addr_injOn
        rw [takeWhile_addr_eq (List.nodup_cons.mp hnodup).2,
          hlight before fun d hd => hrest (by simp [hd])]
        simp [hfront.le, hless, hless.le, or_imp, forall_and]
      · rw [if_neg heq.ge.not_gt, if_neg heq.ge.not_gt, if_neg heq.le.not_gt, hlight rest hrest]
        simp [hfront.le, heq.le]
      · rw [if_pos hmore]
        simp [hmore.not_ge]

/-- The insertion gives up exactly on the refused weights. -/
theorem Represents.place_eq_none_iff (h : Represents q s) :
    s.place new = none ↔ Refused q new.unit.data.weight := by
  rw [Sequence.place_eq_none_iff, Refused, h.cycle_eq]
  cases hcells : s.cells with
  | nil => simp
  | cons front rest =>
      have hnum : q.elemNum ≠ 0 ↔ s.count ≠ 0 := not_congr h.elemNum_eq_zero_iff
      have hfront : weightAt q front.addr = new.unit.data.weight ↔ front.weight = new.weight := by
        rw [← UInt32.toNat_inj, weightAt_addr h (hcells ▸ List.mem_cons_self)]
        rfl
      have hlast : weightAt q ((rest.map Cell.addr).getLastD front.addr) <
          new.unit.data.weight ↔ (rest.getLastD front).weight < new.weight := by
        have haddr : (rest.map Cell.addr).getLastD front.addr = (rest.getLastD front).addr := by
          rcases List.eq_nil_or_concat rest with rfl | ⟨rest, x, rfl⟩
          · rfl
          · rw [List.concat_eq_append, List.map_append, List.map_singleton,
              List.getLastD_concat, List.getLastD_concat]
        rw [haddr, UInt32.lt_iff_toNat_lt, weightAt_addr h (hcells ▸ List.getLastD_mem_cons)]
        rfl
      simp only [List.map_cons, hnum, hfront, hlast]
      constructor
      · rintro ⟨hcount, _, _, heq, hle, hless, hall, hend⟩
        obtain ⟨rfl, rfl⟩ := List.cons.inj heq
        have htie : front.weight = new.weight := by
          refine le_antisymm ?_ hle
          rcases Sequence.window_cases front rest s.tmp hle with
            hw | ⟨_, t, _, -, -, ⟨hheavy, hw⟩ | ⟨_, -, -, hw⟩⟩
          · rwa [hw] at hend
          · rw [hw] at hend
            exact absurd hend (not_le.mpr hheavy)
          · rwa [hw] at hend
        exact ⟨hcount, htie, hless, (h.window_iff hcells htie).mp ⟨hall, hend⟩⟩
      · rintro ⟨hcount, htie, hless, hscan⟩
        obtain ⟨hall, hend⟩ := (h.window_iff hcells htie).mpr hscan
        exact ⟨hcount, front, rest, rfl, htie.ge, hless, hall, hend⟩

/-! ## Requests that are served -/

theorem Represents.found_iff (h : Represents q s) {a : UInt32} :
    Found q a ↔ s.lookup a ≠ none := by
  cases hlookup : s.lookup a <;>
    simp [Found, qlistAnchorageExistence, h.qlistSearch_eq, hlookup]

theorem Represents.copies_eq (h : Represents q s) (a : UInt32) :
    copies q a = (s.line.map Prod.fst).count a := by
  rw [copies, h.ring_eq_line, Option.getD_some]

/-- The outcome of a request in terms of the sequence. -/
theorem Represents.served_iff_call (h : Represents q s) {a : UInt32} {d : QlistUnitData}
    {x : Addr} (hfresh : x ∉ q.live) :
    Served q a d x ↔
      (s.call (.appendUpdate a d (some x))).1 = .errno .ok ∧
        ∃ front back, (s.call (.appendUpdate a d (some x))).2.line = front ++ (a, d) :: back ∧
          a ∉ (front ++ back).map Prod.fst ∧ dropAnchorage a s.line = front ++ back := by
  have hmalloc : QlistCall.MallocContract q (.appendUpdate a d (some x)) := hfresh
  obtain ⟨q', hcall, hrep⟩ := h.call hmalloc
  obtain ⟨⟨e, q''⟩, hrun, hpair⟩ := Option.map_eq_some_iff.mp hcall
  obtain ⟨hret, rfl⟩ : QlistRet.errno e = (s.call (.appendUpdate a d (some x))).1 ∧ q'' = q' := by
    simpa using hpair
  rw [← hret, Served, hrun]
  simp only [Option.some.injEq, Prod.mk.injEq, QlistRet.errno.injEq, h.ring_eq_line]
  constructor
  · rintro ⟨_, ⟨rfl, rfl⟩, _, front, back, rfl, hafter, habsent, hdrop⟩
    rw [hrep.ring_eq_line] at hafter
    exact ⟨rfl, front, back, Option.some.inj hafter, habsent, hdrop⟩
  · rintro ⟨rfl, front, back, hafter, habsent, hdrop⟩
    exact ⟨q'', ⟨rfl, rfl⟩, _, front, back, rfl, by rw [hrep.ring_eq_line, hafter], habsent, hdrop⟩

theorem count_middle {a : UInt32} {d : QlistUnitData} {front back : List Pair} :
    ((front ++ (a, d) :: back).map Prod.fst).count a =
      ((front ++ back).map Prod.fst).count a + 1 := by
  simp [List.count_append, Nat.add_assoc]

/-- A request whose anchorage the lookup finds is served when it is queued once. -/
theorem Represents.served_iff_of_found (h : Represents q s) {a : UInt32} {d : QlistUnitData}
    {x : Addr} (hfresh : x ∉ q.live) {c : Cell} (hlookup : s.lookup a = some c) :
    Served q a d x ↔ copies q a = 1 := by
  obtain ⟨hc, rfl⟩ := Sequence.mem_of_lookup hlookup
  have hafter : (s.call (.appendUpdate c.unit.anchorage d (some x))).2.line =
      (Sequence.refresh c.addr d s.cells).map Cell.pair := by
    simp [Sequence.call, hlookup, Sequence.line]
  have hret : (s.call (.appendUpdate c.unit.anchorage d (some x))).1 = .errno .ok := by
    simp [Sequence.call, hlookup]
  have hfst : ((Sequence.refresh c.addr d s.cells).map Cell.pair).map Prod.fst =
      s.line.map Prod.fst := by
    rw [Sequence.refresh, Sequence.line, List.map_map, List.map_map, List.map_map]
    exact List.map_congr_left fun e _ => by by_cases he : e.addr = c.addr <;> simp [he, Cell.pair]
  rw [h.served_iff_call hfresh, hafter, hret, h.copies_eq]
  constructor
  · rintro ⟨-, front, back, hline, habsent, -⟩
    rw [← hfst, hline, count_middle, List.count_eq_zero.mpr habsent]
  · intro hone
    obtain ⟨front, back, hcells⟩ := List.append_of_mem hc
    have hline : s.line = front.map Cell.pair ++ c.pair :: back.map Cell.pair := by
      simp [Sequence.line, hcells]
    have habsent : c.unit.anchorage ∉
        (front.map Cell.pair ++ back.map Cell.pair).map Prod.fst := by
      rw [hline] at hone
      have hzero : ((front.map Cell.pair ++ back.map Cell.pair).map Prod.fst).count
          c.unit.anchorage = 0 := Nat.succ.inj (count_middle.symm.trans hone)
      exact List.count_eq_zero.mp hzero
    refine ⟨rfl, front.map Cell.pair, back.map Cell.pair, ?_, habsent, ?_⟩
    · have hnodup := h.addr_injOn
      rw [hcells, List.map_append, List.map_cons] at hnodup
      have hout := (List.nodup_cons.mp (List.nodup_middle.mp hnodup)).1
      have hkeep : ∀ l : List Cell, c.addr ∉ l.map Cell.addr →
          Sequence.refresh c.addr d l = l := by
        intro l hl
        refine (List.map_congr_left fun e he => ?_).trans (List.map_id l)
        have hne : e.addr ≠ c.addr := fun heq => hl (heq ▸ List.mem_map_of_mem he)
        simp [hne]
      have hsplit : Sequence.refresh c.addr d s.cells = Sequence.refresh c.addr d front ++
          { c with unit.data := d } :: Sequence.refresh c.addr d back := by
        simp [Sequence.refresh, hcells]
      rw [hsplit, hkeep front fun hin => hout (List.mem_append_left _ hin),
        hkeep back fun hin => hout (List.mem_append_right _ hin)]
      simp [Cell.pair]
    · rw [← dropAnchorage_of_absent habsent, hline]
      simp [dropAnchorage, Cell.pair]

/-- A request whose anchorage the lookup misses is served when it is not queued
and its weight is not refused. -/
theorem Represents.served_iff_of_not_found (h : Represents q s) {a : UInt32}
    {d : QlistUnitData} {x : Addr} (hfresh : x ∉ q.live) (hlookup : s.lookup a = none) :
    Served q a d x ↔ copies q a = 0 ∧ ¬ Refused q d.weight := by
  have hplaced : s.place ⟨x, ⟨a, d⟩⟩ = none ↔ Refused q d.weight := h.place_eq_none_iff
  rw [h.served_iff_call hfresh, h.copies_eq]
  cases hplace : s.place ⟨x, ⟨a, d⟩⟩ with
  | none => simp [Sequence.call, hlookup, hplace, hplaced.mp hplace]
  | some cells' =>
      obtain ⟨front, back, hcells, rfl⟩ := Sequence.exists_of_place_eq_some hplace
      have hline : s.line = front.map Cell.pair ++ back.map Cell.pair := by
        simp [Sequence.line, hcells]
      have hafter : (s.call (.appendUpdate a d (some x))).2.line =
          front.map Cell.pair ++ (a, d) :: back.map Cell.pair := by
        simp [Sequence.call, hlookup, hplace, Sequence.line, Cell.pair]
      have hret : (s.call (.appendUpdate a d (some x))).1 = .errno .ok := by
        simp [Sequence.call, hlookup, hplace]
      have haccepted : ¬ Refused q d.weight := fun href => by
        rw [hplaced.mpr href] at hplace
        simp at hplace
      rw [hafter, hret]
      constructor
      · rintro ⟨-, front', back', heq, habsent, -⟩
        refine ⟨?_, haccepted⟩
        have hcount := congrArg (fun line : List Pair => (line.map Prod.fst).count a) heq
        simp only [count_middle] at hcount
        rw [hline, Nat.succ.inj hcount]
        exact List.count_eq_zero.mpr habsent
      · rintro ⟨hzero, -⟩
        have habsent := List.count_eq_zero.mp hzero
        rw [hline] at habsent
        exact ⟨rfl, _, _, rfl, habsent, by rw [hline, dropAnchorage_of_absent habsent]⟩

/-- Exactly when a queue-up request with memory available is served: the anchorage
is queued once and found, or it is not queued and its weight is not refused. -/
theorem served_iff {history : List (QlistCall × QlistRet)} (run : qlistSystem.Trace history q)
    (a : UInt32) (d : QlistUnitData) {x : Addr} (hfresh : x ∉ q.live) :
    Served q a d x ↔
      (Found q a ∧ copies q a = 1) ∨ (copies q a = 0 ∧ ¬ Refused q d.weight) := by
  obtain ⟨s, h⟩ := exists_represents run
  cases hlookup : s.lookup a with
  | some c =>
      have hfound : Found q a := h.found_iff.mpr (by simp [hlookup])
      have hpos : copies q a ≠ 0 := by
        rw [h.copies_eq]
        exact fun hzero => List.count_eq_zero.mp hzero (Sequence.mem_line_of_lookup hlookup)
      rw [h.served_iff_of_found hfresh hlookup]
      simp [hfound, hpos]
  | none =>
      have hmissed : ¬ Found q a := fun hfound => h.found_iff.mp hfound hlookup
      rw [h.served_iff_of_not_found hfresh hlookup]
      simp [hmissed]

/-- The queue of weights 5, 1 lets a newcomer of weight 3 in. -/
theorem served_between_the_weights :
    ∃ history q, qlistSystem.Trace history q ∧ 2 ∉ q.live ∧ Served q 3 (ofWeight 3) 2 := by
  obtain ⟨history, q, run, htest⟩ := exists_run System.anyStep
    [.appendUpdate 1 (ofWeight 5) (some 0), .appendUpdate 2 (ofWeight 1) (some 1)]
    (fun r => 2 ∉ r.2.live ∧ copies r.2 3 = 0 ∧ ¬ Refused r.2 (ofWeight 3).weight)
    (by decide +kernel)
  obtain ⟨hfresh, haccepted⟩ := of_decide_eq_true htest
  exact ⟨history, q, run, hfresh, (served_iff run 3 (ofWeight 3) hfresh).mpr (Or.inr haccepted)⟩

/-- The queue of weights 5, 1 loses a newcomer of weight 5. -/
theorem exists_request_lost :
    ¬ ∀ history q a d x, qlistSystem.Trace history q → x ∉ q.live → Served q a d x := by
  intro hevery
  obtain ⟨history, q, run, htest⟩ := exists_run System.anyStep
    [.appendUpdate 1 (ofWeight 5) (some 0), .appendUpdate 2 (ofWeight 1) (some 1)]
    (fun r => 2 ∉ r.2.live ∧
      (qlistAppendUpdate r.2 3 (ofWeight 5) (some 2)).map Prod.fst = some .unknown)
    (by decide +kernel)
  obtain ⟨hfresh, hlost⟩ := of_decide_eq_true htest
  obtain ⟨q', hserved, -⟩ := hevery history q 3 (ofWeight 5) 2 run hfresh
  rw [hserved] at hlost
  simp at hlost

end BliveQueue.QList
