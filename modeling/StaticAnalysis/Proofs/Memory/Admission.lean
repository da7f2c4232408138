import StaticAnalysis.Proofs.Memory.Pointers
import StaticAnalysis.Proofs.Transfer.Flatness

/-!
# What values admit

`Memory.Describes` says what a value stands for.  Conditions make more of some values: of a variable
about which nothing is known, a comparison with a number makes an integer about which nothing is
known, whatever the variable holds.  `Memory.Admits` allows for that.  It is kept by joins, by the
conversions between integers and addresses, and by meets if both sides have the datum.
-/

namespace StaticAnalysis

open Fault IntVal SortedSet Value

namespace IntVal

variable {a b r : IntVal}

lemma contains_restrictNe_of_full (ha : a.Tight) (hfull : ∀ n, a.contains n)
    (h : a.restrictNe b = .ok r) (n : Int) : r.contains n := by
  unfold restrictNe at h
  split at h
  · cases h
    exact hfull n
  next k _ =>
    have hends : trimEnds k a.interval = a.interval := by
      have hlow : a.interval.low ≠ .finite k := fun heq => by
        have := (Interval.contains_iff.1 (contains_iff.1 (hfull (k - 1))).1).1
        rw [heq, Bound.finite_le_finite] at this
        omega
      have hhigh : a.interval.high ≠ .finite k := fun heq => by
        have := (Interval.contains_iff.1 (contains_iff.1 (hfull (k + 1))).1).2
        rw [heq, Bound.finite_le_finite] at this
        omega
      simp [trimEnds, hlow, hhigh]
    rw [hends] at h
    exact contains_reduced ha.interval (contains_iff.1 (hfull n)).1 (contains_iff.1 (hfull n)).2 h

end IntVal

namespace Datum

variable {ω : Type} {d : Datum ω} {n : Int}

/-- What an integer that stands for the datum has to contain: the datum, or every number if it is
none. -/
def Allows (d : Datum ω) (n : Int) : Prop := ∀ k, d = .number k → n = k

lemma allows_number : (number n : Datum ω).Allows n := fun _ => number.inj

lemma exists_allows (d : Datum ω) : ∃ n, d.Allows n := by
  cases d with
  | number n => exact ⟨n, allows_number⟩
  | _ => exact ⟨0, nofun⟩

lemma exists_allows_ne (h : d ≠ .number n) : ∃ l, d.Allows l ∧ l ≠ n := by
  cases d with
  | number l => exact ⟨l, allows_number, fun hl => h (hl ▸ rfl)⟩
  | _ => exact ⟨n + 1, nofun, by omega⟩

end Datum

namespace Memory

variable {ω : Type} {m m' : Memory ω} {v w u : Value} {d : Datum ω} {o : ω} {path : List String}

/-- A value stands for a datum, or it is an integer or an address about which nothing is known. -/
def Admits (m : Memory ω) (v : Value) (d : Datum ω) : Prop :=
  m.Describes v d ∨ v = .addr .any ∨ ∃ i, v = .int i ∧ ∀ n, i.contains n = true

lemma admits_top : m.Admits .top d := .inl .top

lemma admits_any : m.Admits (.addr .any) d := .inr (.inl rfl)

variable {i j k : IntVal} {n : Int} {a : AddrSet}

lemma admits_int : m.Admits (.int i) d ↔ ∀ n, d.Allows n → i.contains n := by
  constructor
  · rintro (h | h | ⟨j, h, hfull⟩) n hn
    · cases h with
      | int h => exact hn _ rfl ▸ h
    · cases h
    · cases h
      exact hfull n
  · intro h
    by_cases hd : ∃ k, d = .number k
    · obtain ⟨k, rfl⟩ := hd
      exact .inl (.int (h k Datum.allows_number))
    · exact .inr (.inr ⟨i, rfl, fun n => h n fun k hk => absurd ⟨k, hk⟩ hd⟩)

lemma admits_full (h : ∀ n, i.contains n) : m.Admits (.int i) d :=
  admits_int.2 fun n _ => h n

lemma admits_number : m.Admits (.int i) (.number n) ↔ i.contains n :=
  ⟨fun h => admits_int.1 h n Datum.allows_number, fun h => .inl (.int h)⟩

section

variable (h : m.Admits (.int i) d)
include h

lemma Admits.full (hd : ∀ n, d ≠ .number n) (n : Int) : i.contains n :=
  admits_int.1 h n fun k hk => absurd hk (hd k)

lemma Admits.int_of_contains (hj : ∀ n, i.contains n → j.contains n) : m.Admits (.int j) d :=
  admits_int.2 fun n hn => hj n (admits_int.1 h n hn)

lemma Admits.eq_number (hi : i.constant? = some n) : d = .number n := by
  by_cases hd : ∃ k, d = .number k
  · obtain ⟨k, rfl⟩ := hd
    rw [eq_of_constant? hi (admits_number.1 h)]
  · have hfull := h.full fun k hk => hd ⟨k, hk⟩
    have := eq_of_constant? hi (hfull (n + 1))
    omega

end

lemma admits_targets {S : SortedSet Target} :
    m.Admits (.addr (.of S)) d ↔
      (d = .number 0 ∧ none ∈ S) ∨ ∃ o path, d = .pointer o path ∧ some (m.cell o path) ∈ S := by
  constructor
  · rintro (h | h | ⟨j, h, -⟩)
    · cases h with
      | null h => exact .inl ⟨rfl, SortedSet.contains_iff.1 h⟩
      | target h => exact .inr ⟨_, _, rfl, h⟩
    · cases h
    · cases h
  · rintro (⟨rfl, h⟩ | ⟨o, path, rfl, h⟩)
    · exact .inl (.null (SortedSet.contains_iff.2 h))
    · exact .inl (.target h)

lemma Describes.congr (h : m.Describes v d) (hbase : m'.base = m.base) : m'.Describes v d := by
  induction h with
  | top => exact .top
  | int h => exact .int h
  | null h => exact .null h
  | anywhere => exact .anywhere
  | target h => exact .target (by simpa [cell, hbase] using h)
  | array hlength _ ih => exact .array hlength ih

lemma Admits.congr (h : m.Admits v d) (hbase : m'.base = m.base) : m'.Admits v d :=
  h.imp_left (·.congr hbase)

lemma Admits.isVoid (h : m.Admits v d) : v.isVoid = false := by
  rcases h with h | rfl | ⟨i, rfl, hfull⟩
  · cases h with
    | top | anywhere | array => rfl
    | int h => exact isBottom_of_contains h
    | null h => exact AddrSet.isBottom_of_mayBeNull h
    | target h =>
      rw [Value.isVoid, AddrSet.isBottom, ← Bool.not_eq_true, SortedSet.isEmpty_iff]
      exact fun hnone => hnone _ h
  · rfl
  · exact isBottom_of_contains (hfull 0)

/-! ## Order -/

lemma Admits.null {a : AddrSet} (h : m.Admits (.int i) d) (hi : i.constant? = some 0)
    (ha : a.mayBeNull) : m.Admits (.addr a) d := by
  rw [h.eq_number hi]
  exact .inl (.null ha)

lemma Admits.addr_le {a b : AddrSet} (h : m.Admits (.addr a) d) (hle : a.le b) :
    m.Admits (.addr b) d := by
  rcases AddrSet.le_cases hle with rfl | ⟨S, T, rfl, rfl, hsub⟩
  · exact admits_any
  refine admits_targets.2 ((admits_targets.1 h).imp (And.imp_right (hsub _)) ?_)
  rintro ⟨o, path, hd, hmem⟩
  exact ⟨o, path, hd, hsub _ hmem⟩

lemma Admits.le (h : m.Admits v d) (hv : v.Scalar) (hle : v.Below w) : m.Admits w d := by
  cases hle with
  | void hvoid => cases h.isVoid.symm.trans ((isBottom_iff (isBottom_eq hv)).2 hvoid)
  | top => exact admits_top
  | int hle => exact h.int_of_contains fun _ => contains_of_le hle
  | addr hle => exact h.addr_le hle
  | null hi ha => exact h.null hi ha
  | array => exact absurd hv id

lemma Admits.join (hv : v.Scalar) (hw : w.Scalar) (h : v.join w = .ok u)
    (hd : m.Admits v d ∨ m.Admits w d) : m.Admits u d := by
  obtain ⟨-, hvu, hwu⟩ := upperBound_join hv hw h
  exact hd.elim (·.le hv hvu) (·.le hw hwu)

lemma admits_havoc (hv : v.isArray = false) : m.Admits v.havoc d := by
  cases v with
  | addr => exact admits_any
  | array => cases hv
  | _ => exact admits_top

/-! ## Conversions -/

lemma Admits.toInt (h : m.Admits v d) : m.Admits (.int v.toInt) d := by
  cases v with
  | int i => exact h
  | bottom => exact absurd h.isVoid (by simp [Value.isVoid])
  | top | array => exact admits_full fun _ => contains_top
  | addr a =>
    cases a with
    | any => exact admits_full fun _ => contains_top
    | of S =>
      have hne : S.isEmpty = false := h.isVoid
      simp only [Value.toInt, hne, Bool.false_eq_true, if_false]
      split
      next hall =>
        rcases admits_targets.1 h with ⟨rfl, -⟩ | ⟨o, path, -, hmem⟩
        · exact admits_number.2 (contains_constant.2 rfl)
        · simpa using List.all_eq_true.1 hall _ (mem_toList.2 hmem)
      next => exact admits_full fun _ => contains_top

lemma Admits.contains_toInt (h : m.Admits v (.number n)) : v.toInt.contains n :=
  admits_number.1 h.toInt

lemma Admits.toAddr (h : m.Admits v d) : m.Admits (.addr v.toAddr) d := by
  cases v with
  | addr a => exact h
  | bottom => exact absurd h.isVoid (by simp [Value.isVoid])
  | top | array => exact admits_any
  | int i =>
    have hne : i.isBottom = false := h.isVoid
    simp only [Value.toAddr, hne, Bool.false_eq_true, if_false]
    split
    next hzero =>
      exact admits_targets.2 (.inl ⟨h.eq_number hzero, mem_singleton.2 rfl⟩)
    next => exact admits_any

lemma Admits.mem_cells? {cells : List Cell} (h : m.Admits v (.pointer o path))
    (hcells : v.toAddr.cells? = some cells) : m.cell o path ∈ cells := by
  have hv := h.toAddr
  cases ha : v.toAddr with
  | any => simp [ha, AddrSet.cells?, AddrSet.targets?] at hcells
  | of S =>
    simp only [ha, AddrSet.cells?, AddrSet.targets?, Option.map_some, Option.some.injEq] at hcells
    rw [ha] at hv
    obtain ⟨hnumber, -⟩ | ⟨o', path', hpointer, hmem⟩ := admits_targets.1 hv
    · cases hnumber
    · cases hpointer
      subst hcells
      exact List.mem_filterMap.2 ⟨_, mem_toList.2 hmem, rfl⟩

/-! ## Meets -/

lemma Admits.meet {b : AddrSet} (ha : m.Admits (.addr a) d) (hb : m.Admits (.addr b) d) :
    m.Admits (.addr (a.meet b)) d := by
  cases a with
  | any => exact hb
  | of S =>
    cases b with
    | any => exact ha
    | of T =>
      refine admits_targets.2 ?_
      rcases admits_targets.1 ha with ⟨rfl, hS⟩ | ⟨o, path, rfl, hS⟩
      · rcases admits_targets.1 hb with ⟨-, hT⟩ | ⟨o, path, hd, -⟩
        · exact .inl ⟨rfl, mem_inter.2 ⟨hS, hT⟩⟩
        · cases hd
      · rcases admits_targets.1 hb with ⟨hd, -⟩ | ⟨o', path', hd, hT⟩
        · cases hd
        · cases hd
          exact .inr ⟨o, path, rfl, mem_inter.2 ⟨hS, hT⟩⟩

lemma Admits.withoutNull (ha : m.Admits (.addr a) d) (hd : d ≠ .number 0) :
    m.Admits (.addr a.withoutNull) d := by
  cases a with
  | any => exact admits_any
  | of S =>
    rcases admits_targets.1 ha with ⟨rfl, -⟩ | ⟨o, path, rfl, hS⟩
    · exact absurd rfl hd
    · exact admits_targets.2 (.inr ⟨o, path, rfl, mem_filter.2 ⟨hS, rfl⟩⟩)

lemma Admits.meet_int (hi : i.Tight) (hj : j.Tight) (h : i.meet j = .ok k)
    (hid : m.Admits (.int i) d) (hjd : m.Admits (.int j) d) : m.Admits (.int k) d :=
  admits_int.2 fun n hn => contains_meet hi.wellFormed hj.wellFormed (admits_int.1 hid n hn)
    (admits_int.1 hjd n hn) h

lemma Admits.restrict {domains : DomainSet} (hi : i.Tight) (h : i.restrict domains = .ok k)
    (hid : m.Admits (.int i) d) : m.Admits (.int k) d :=
  hid.int_of_contains fun _ hn => contains_restrict hi.wellFormed hn h

lemma Admits.restrictNe {d' : Datum ω} (hi : i.Tight) (hid : m.Admits (.int i) d)
    (hjd : m.Admits (.int j) d') (hne : d ≠ d') (hfits : ∀ n, d = .number n → Word.fits n)
    (h : i.restrictNe j = .ok k) : m.Admits (.int k) d := by
  by_cases hd : ∃ n, d = .number n
  · obtain ⟨n, rfl⟩ := hd
    obtain ⟨l, hl, hnl⟩ := Datum.exists_allows_ne hne.symm
    rw [admits_number] at hid ⊢
    exact contains_restrictNe hi.wellFormed hid (admits_int.1 hjd l hl) hnl.symm (hfits n rfl) h
  · exact admits_full (contains_restrictNe_of_full hi (hid.full fun n hn => hd ⟨n, hn⟩) h)

lemma Admits.meetTarget {env : Env} (hv : v.Scalar) (hw : w.Scalar) (hvd : m.Admits v d)
    (hwd : m.Admits w d) (h : State.meetTarget env v w = .ok (some u)) : m.Admits u d := by
  cases v <;> cases w <;> try cases h
  case int.int i j =>
    obtain ⟨k, hk, h⟩ := bind_eq_ok.1 h
    obtain ⟨r, hr, h⟩ := bind_eq_ok.1 h
    cases h
    exact (hvd.meet_int hv hw hk hwd).restrict (tight_meet hv.wellFormed hw.wellFormed hk) hr
  case addr.addr => exact hvd.meet hwd
  case top.int j =>
    obtain ⟨r, hr, h⟩ := bind_eq_ok.1 h
    cases h
    exact hwd.restrict hw hr
  case top.addr => exact hwd

end Memory
end StaticAnalysis
