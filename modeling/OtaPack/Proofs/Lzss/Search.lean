/-
  The search for the best match is exhaustive.

  * `Reaches w r i n`: `n` bytes are the most that the match for `r` can have at the place `i`;
    `reaches_matchLength`: that is what is counted;
  * `candidate w r d`: the match at the distance `d` behind `r`; `candidates w r`: all of them, the
    nearest first;
  * `FirstLongest ms m`: no match before `m` is as long, and none after it is longer;
    `firstLongest_foldl`: the best of some matches, one after the other, is the first longest;
  * `scan_eq_foldl`: to end early changes nothing; `foldl_better_filter`: nor does it to pass over
    matches that are not worth it;
  * `firstLongest_longestMatch`: the longest match is the first longest of all candidates.
-/
import Mathlib.Order.Bounds.Basic
import OtaPack.Lzss.Search

namespace OtaPack.Lzss

variable {w : Array UInt8} {r i n d limit left : Nat} {best m : Match} {ms : List Match}

/-! ## The length of a match -/

/-- At most `n` bytes from the place `i` on agree with those from `r` on, in as many bytes as a
    match for `r` may have. -/
def Reaches (w : Array UInt8) (r i n : Nat) : Prop :=
  IsGreatest {n | n ≤ lookahead w r ∧ ∀ j < n, w.getD (i + j) 0 = w.getD (r + j) 0} n

/-- A match that ends before the limit ends at bytes that differ. -/
theorem getD_ne_of_extendMatch_lt (h : extendMatch w i r limit n < limit) :
    w.getD (i + extendMatch w i r limit n) 0 ≠ w.getD (r + extendMatch w i r limit n) 0 := by
  fun_induction extendMatch w i r limit n with
  | case1 n hn ih => exact ih h
  | case2 n hn => exact fun heq => hn ⟨h, heq⟩

theorem reaches_matchLength (w : Array UInt8) (r i : Nat) :
    Reaches w r i (matchLength w i r (lookahead w r)) := by
  refine ⟨⟨matchLength_le _ _ _ _, fun j hj => getD_of_lt_matchLength hj⟩, ?_⟩
  rintro n ⟨hn, hagree⟩
  refine Nat.le_of_not_lt fun hlt => ?_
  exact getD_ne_of_extendMatch_lt (Nat.lt_of_lt_of_le hlt hn) (hagree _ hlt)

theorem Reaches.eq_matchLength (h : Reaches w r i n) :
    n = matchLength w i r (lookahead w r) :=
  h.unique (reaches_matchLength w r i)

theorem matchLength_of_ne (h : w.getD i 0 ≠ w.getD r 0) : matchLength w i r limit = 0 := by
  rw [matchLength, extendMatch, if_neg fun hagree => h hagree.2]

/-! ## The best of some matches -/

/-- The match `m` is the first of the longest: those before it are shorter, and those after it are
    not longer. -/
def FirstLongest (ms : List Match) (m : Match) : Prop :=
  ∃ before after, ms = before ++ m :: after ∧ (∀ m' ∈ before, m'.length < m.length) ∧
    ∀ m' ∈ after, m'.length ≤ m.length

theorem FirstLongest.mem (h : FirstLongest ms m) : m ∈ ms := by
  obtain ⟨before, after, rfl, -, -⟩ := h
  exact List.mem_append_right _ List.mem_cons_self

theorem FirstLongest.length_le (h : FirstLongest ms m) {m' : Match} (hm' : m' ∈ ms) :
    m'.length ≤ m.length := by
  obtain ⟨before, after, rfl, hbefore, hafter⟩ := h
  rcases List.mem_append.1 hm' with hm' | hm'
  · exact Nat.le_of_lt (hbefore m' hm')
  · rcases List.mem_cons.1 hm' with rfl | hm'
    · exact Nat.le_refl _
    · exact hafter m' hm'

/-- A shorter match in front changes nothing. -/
theorem FirstLongest.cons (h : FirstLongest ms m) {m' : Match} (hshort : m'.length < m.length) :
    FirstLongest (m' :: ms) m := by
  obtain ⟨before, after, rfl, hbefore, hafter⟩ := h
  exact ⟨m' :: before, after, rfl, List.forall_mem_cons.2 ⟨hshort, hbefore⟩, hafter⟩

/-- Nor does one right after the first if that is not shorter. -/
theorem FirstLongest.insert (h : FirstLongest (best :: ms) m) {m' : Match}
    (hshort : m'.length ≤ best.length) : FirstLongest (best :: m' :: ms) m := by
  obtain ⟨before, after, heq, hbefore, hafter⟩ := h
  cases before with
  | nil =>
    obtain ⟨rfl, rfl⟩ := List.cons.inj heq
    exact ⟨[], m' :: ms, rfl, hbefore, List.forall_mem_cons.2 ⟨hshort, hafter⟩⟩
  | cons first before =>
    obtain ⟨rfl, rfl⟩ := List.cons.inj heq
    obtain ⟨hfirst, hrest⟩ := List.forall_mem_cons.1 hbefore
    have hm' := Nat.lt_of_le_of_lt hshort hfirst
    exact ⟨best :: m' :: before, after, rfl,
      List.forall_mem_cons.2 ⟨hfirst, List.forall_mem_cons.2 ⟨hm', hrest⟩⟩, hafter⟩

theorem firstLongest_foldl (best : Match) (ms : List Match) :
    FirstLongest (best :: ms) (ms.foldl Match.better best) := by
  induction ms generalizing best with
  | nil => exact ⟨[], [], rfl, nofun, nofun⟩
  | cons m ms ih =>
    rw [List.foldl_cons, Match.better]
    split
    · rename_i hlonger
      have h := ih m
      exact h.cons (Nat.lt_of_lt_of_le hlonger (h.length_le List.mem_cons_self))
    · rename_i hshort
      exact (ih best).insert (Nat.le_of_not_lt hshort)

theorem better_of_le {m' : Match} (h : m'.length ≤ m.length) : m.better m' = m :=
  if_neg (Nat.not_lt_of_le h)

theorem length_le_better (m m' : Match) : m.length ≤ (m.better m').length := by
  unfold Match.better
  split
  · exact Nat.le_of_lt ‹_›
  · exact Nat.le_refl _

/-- No shorter match is better. -/
theorem foldl_better_of_le (h : ∀ m ∈ ms, m.length ≤ best.length) :
    ms.foldl Match.better best = best := by
  induction ms with
  | nil => rfl
  | cons m ms ih =>
    obtain ⟨hm, hms⟩ := List.forall_mem_cons.1 h
    rw [List.foldl_cons, better_of_le hm, ih hms]

/-- Matches that are not worth it may be passed over. -/
theorem foldl_better_filter {p : Match → Bool} (hbest : literalLimit ≤ best.length)
    (h : ∀ m ∈ ms, p m = false → m.length ≤ literalLimit) :
    (ms.filter p).foldl Match.better best = ms.foldl Match.better best := by
  induction ms generalizing best with
  | nil => rfl
  | cons m ms ih =>
    obtain ⟨hm, hms⟩ := List.forall_mem_cons.1 h
    rw [List.filter_cons, List.foldl_cons]
    split
    · exact ih (Nat.le_trans hbest (length_le_better best m)) hms
    · rename_i hpass
      rw [better_of_le (Nat.le_trans (hm (Bool.not_eq_true _ ▸ hpass)) hbest)]
      exact ih hbest hms

/-! ## The search -/

/-- The match at the distance `d` behind `r`. -/
def candidate (w : Array UInt8) (r d : Nat) : Match :=
  ⟨r - d, matchLength w (r - d) r (lookahead w r)⟩

/-- The matches for the bytes from `r` on, from the nearest to the farthest. -/
def candidates (w : Array UInt8) (r : Nat) : List Match :=
  (List.range' 1 startPosition).map (candidate w r)

theorem mem_candidates :
    m ∈ candidates w r ↔ ∃ d, 1 ≤ d ∧ d ≤ startPosition ∧ candidate w r d = m := by
  simp only [candidates, List.mem_map, List.mem_range'_1, Nat.lt_one_add_iff, and_assoc]

/-- A place before `r` that is not too far back is that of a candidate. -/
theorem mem_candidates_of_near (hi : i < r) (hnear : r ≤ i + startPosition) :
    ⟨i, matchLength w i r (lookahead w r)⟩ ∈ candidates w r := by
  refine mem_candidates.2 ⟨r - i, by omega, by omega, ?_⟩
  rw [candidate, Nat.sub_sub_self (Nat.le_of_lt hi)]

/-- No candidate beats a match that is as long as it may be. -/
theorem foldl_better_of_full (hfull : best.length = lookahead w r) (ds : List Nat) :
    (ds.map (candidate w r)).foldl Match.better best = best := by
  refine foldl_better_of_le fun m hm => ?_
  obtain ⟨d, -, rfl⟩ := List.mem_map.1 hm
  rw [hfull]
  exact matchLength_le _ _ _ _

/-- **To end early changes nothing.**  A match that is as long as it may be is not beaten. -/
theorem scan_eq_foldl :
    scan w r (lookahead w r) left d best =
      ((List.range' d left).map (candidate w r)).foldl Match.better best := by
  induction left generalizing d best with
  | zero => rfl
  | succ left ih =>
    rw [List.range'_succ, List.map_cons, List.foldl_cons, scan, ← ih]
    show (if (best.better (candidate w r d)).length = lookahead w r then _ else _) = _
    split
    · rename_i hfull
      rw [ih, foldl_better_of_full hfull]
      rfl
    · rfl

theorem longestMatch_eq_foldl (w : Array UInt8) (r : Nat) :
    longestMatch w r = (candidates w r).foldl Match.better .none :=
  scan_eq_foldl

/-- **To pass over candidates that differ in the first byte changes nothing.** -/
theorem longestMatch_eq_foldl_filter (w : Array UInt8) (r : Nat) :
    longestMatch w r = ((candidates w r).filter fun m => w.getD m.start 0 = w.getD r 0).foldl
      Match.better .none := by
  rw [longestMatch_eq_foldl, foldl_better_filter (Nat.le_refl _)]
  intro m hm hdiffers
  obtain ⟨d, -, -, rfl⟩ := mem_candidates.1 hm
  have hzero : (candidate w r d).length = 0 := matchLength_of_ne (of_decide_eq_false hdiffers)
  rw [hzero]
  exact Nat.zero_le _

theorem firstLongest_longestMatch (w : Array UInt8) (r : Nat) :
    FirstLongest (.none :: candidates w r) (longestMatch w r) := by
  rw [longestMatch_eq_foldl]
  exact firstLongest_foldl _ _

/-- Of the candidates that are as long as the longest match, none is nearer. -/
theorem start_le_longestMatch (hworth : literalLimit < (longestMatch w r).length)
    (hm : m ∈ candidates w r) (hlen : m.length = (longestMatch w r).length) :
    m.start ≤ (longestMatch w r).start := by
  have hnearer : (candidates w r).Pairwise fun m m' => m'.start ≤ m.start :=
    List.Pairwise.map _ (fun d d' hlt => Nat.sub_le_sub_left (Nat.le_of_lt hlt) r)
      (List.pairwise_lt_range' 1 Nat.one_pos)
  obtain ⟨before, after, heq, hbefore, -⟩ := firstLongest_longestMatch w r
  cases before with
  | nil =>
    have hnone := (List.cons.inj heq).1
    rw [← hnone] at hworth
    exact absurd hworth (Nat.lt_irrefl _)
  | cons first before =>
    obtain ⟨-, heq⟩ := List.cons.inj heq
    rw [heq] at hm hnearer
    rcases List.mem_append.1 hm with hm | hm
    · have hshorter := hbefore m (List.mem_cons_of_mem _ hm)
      omega
    · rcases List.mem_cons.1 hm with rfl | hm
      · exact Nat.le_refl _
      · exact (List.pairwise_cons.1 (List.pairwise_append.1 hnearer).2.1).1 m hm

end OtaPack.Lzss
