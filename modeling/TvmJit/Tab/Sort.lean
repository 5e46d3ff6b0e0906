import TvmJit.Tab.Library
import TvmJit.Foundation.Raises
import TvmJit.Foundation.Rearranged

/-! `table.sort` of `lib_table.c`. -/

namespace TvmJit.Tab

open Foundation Function

/-! ## The sort -/

/-- What ends a sort early. -/
inductive SortError (E : Type)
  | tabsort
  | compare (e : E)
  | table (e : TabError)
  | outOfFuel

/-- The table, what a comparison works on, and the indices that the sort has used. -/
structure SortState (W : Type) where
  t : GCtab
  world : W
  used : List Int

/-- A call of the function, or `lua_lessthan` when there is none. It may answer what it wants, and
raise errors. -/
abbrev Comparison (W E : Type) := TValue → TValue → W → Except E Bool × W

abbrev SortM (W E : Type) := EStateM (SortError E) (SortState W)

section

variable [StrHash] {W E : Type} (depth : Nat) (less : Comparison W E)

def luaRawgeti (n : Int) : SortM W E TValue := fun s =>
  match s.t.ljTabGetint n with
  | .ok v => .ok (v.getD .nil) { s with used := n :: s.used }
  | .error e => .error (.table e) s

def luaRawseti (n : Int) (src : TValue) : SortM W E Unit := fun s =>
  match s.t.ljTabSetint depth n with
  | .ok (dst, t) => .ok () { s with t := t.store dst src, used := n :: s.used }
  | .error e => .error (.table e) s

/-- The values are the two on top of the stack, from the top. -/
def set2 (i j : Int) (top below : TValue) : SortM W E Unit := do
  luaRawseti depth i top
  luaRawseti depth j below

def sortComp (a b : TValue) : SortM W E Bool := fun s =>
  match less a b s.world with
  | (.ok res, world) => .ok res { s with world := world }
  | (.error e, world) => .error (.compare e) { s with world := world }

/-- Repeat `++i` until `a[i] >= P`. -/
def scanUp (u : Int) (pivot : TValue) : Nat → Int → SortM W E (Int × TValue)
  | 0, _ => throw .outOfFuel
  | fuel + 1, i => do
      let ai ← luaRawgeti (i + 1)
      if ← sortComp less ai pivot then
        if i + 1 ≥ u then throw .tabsort
        else scanUp u pivot fuel (i + 1)
      else return (i + 1, ai)

/-- Repeat `--j` until `a[j] <= P`. -/
def scanDown (l : Int) (pivot : TValue) : Nat → Int → SortM W E (Int × TValue)
  | 0, _ => throw .outOfFuel
  | fuel + 1, j => do
      let aj ← luaRawgeti (j - 1)
      if ← sortComp less pivot aj then
        if j - 1 ≤ l then throw .tabsort
        else scanDown l pivot fuel (j - 1)
      else return (j - 1, aj)

/-- The loop around the two scans: where `i` ends. -/
def partition (l u : Int) (pivot : TValue) : Nat → Int → Int → SortM W E Int
  | 0, _, _ => throw .outOfFuel
  | fuel + 1, i, j => do
      let up ← scanUp less u pivot fuel i
      let down ← scanDown less l pivot fuel j
      if down.1 < up.1 then return up.1
      else do
        set2 depth up.1 down.1 down.2 up.2
        partition l u pivot fuel up.1 down.1

/-- Sort the elements `a[l]` and `a[u]`. -/
def sortEnds (l u : Int) : SortM W E Unit := do
  let al ← luaRawgeti l
  let au ← luaRawgeti u
  if ← sortComp less au al then set2 depth l u au al
  else return

/-- Sort `a[(l+u)/2]` between them. -/
def sortMiddle (l u : Int) : SortM W E Unit := do
  let i := (l + u) / 2
  let ai ← luaRawgeti i
  let al ← luaRawgeti l
  if ← sortComp less ai al then set2 depth i l al ai
  else do
    let au ← luaRawgeti u
    if ← sortComp less au ai then set2 depth i u au ai
    else return

/-- The pivot goes to `a[u-1]`, and from there to where the scans meet. -/
def split (fuel : Nat) (l u : Int) : SortM W E Int := do
  let i := (l + u) / 2
  let pivot ← luaRawgeti i
  let last ← luaRawgeti (u - 1)
  set2 depth i (u - 1) last pivot
  let i ← partition depth less l u pivot fuel l (u - 1)
  let last ← luaRawgeti (u - 1)
  let ai ← luaRawgeti i
  set2 depth (u - 1) i ai last
  return i

/-- The smaller half is sorted by a call, and the larger one by the loop. -/
def auxsort : Nat → Int → Int → SortM W E Unit
  | 0, _, _ => throw .outOfFuel
  | fuel + 1, l, u =>
      if l < u then do
        sortEnds depth less l u
        if u - l = 1 then return
        else do
          sortMiddle depth less l u
          if u - l = 2 then return
          else do
            let i ← split depth less fuel l u
            if i - l < u - i then do
              auxsort fuel l (i - 1)
              auxsort fuel (i + 1) u
            else do
              auxsort fuel (i + 1) u
              auxsort fuel l (i - 1)
      else return

/-- `table_sort`. The loops end within as many rounds as there are elements, and two more. -/
def tableSort (fuel : Nat) : SortM W E Unit := fun s =>
  match s.t.ljTabLen fuel with
  | some (.ok n) => auxsort depth less (n.toInt.toNat + 2) 1 n.toInt s
  | some (.error e) => .error (.table e) s
  | none => .error .outOfFuel s

end

/-! ## What a sort keeps -/

/-- A map with other values at the places from 1 to `n`. -/
structure Placed (m₀ m : TValue → TValue) (n : Nat) (a : Int → TValue) : Prop where
  inside : ∀ k : Int, 1 ≤ k → k ≤ n → m (intKey k) = a k
  outside : ∀ key, (∀ k : Int, 1 ≤ k → k ≤ n → key ≠ intKey k) → m key = m₀ key

theorem Placed.swap {m₀ m : TValue → TValue} {n : Nat} {a : Int → TValue} (placed : Placed m₀ m n a)
    (room : n + 1 < 2 ^ 31) {i j : Int} (low : 1 ≤ i ∧ i ≤ n) (high : 1 ≤ j ∧ j ≤ n) :
    Placed m₀ (update (update m (intKey i) (a j)) (intKey j) (a i)) n (a ∘ Equiv.swap i j) := by
  have differ {k k' : Int} (inside : 1 ≤ k ∧ k ≤ n) (inside' : 1 ≤ k' ∧ k' ≤ n) (other : k ≠ k') :
      intKey k ≠ intKey k' := apart room (by omega) (by omega) other
  constructor
  · intro k least most
    change _ = a (Equiv.swap i j k)
    by_cases isSecond : k = j
    · rw [isSecond, update_self, Equiv.swap_apply_right]
    · rw [update_of_ne (differ ⟨least, most⟩ high isSecond)]
      by_cases isFirst : k = i
      · rw [isFirst, update_self, Equiv.swap_apply_left]
      · rw [update_of_ne (differ ⟨least, most⟩ low isFirst), Equiv.swap_apply_of_ne_of_ne isFirst isSecond,
          placed.inside k least most]
  · intro key other
    rw [update_of_ne (other j high.1 high.2), update_of_ne (other i low.1 low.2), placed.outside key other]

/-- A comparison that answers with an order of the values. -/
structure Orders {W E : Type} (less : Comparison W E) (lt : TValue → TValue → Prop) (values : Set TValue) :
    Prop where
  weak : StrictWeak lt values
  answers : ∀ x ∈ values, ∀ y ∈ values, ∀ w, ∃ b : Bool, (less x y w).1 = .ok b ∧ (b = true ↔ lt x y)

/-- The table has the values `a` from 1 to `n`, and only these places have been used. -/
structure Sorting {W : Type} [StrHash] (m₀ : TValue → TValue) (n : Nat) (values : Set TValue)
    (a : Int → TValue) (s : SortState W) : Prop where
  table : ∃ m, s.t.Is m ∧ Placed m₀ m n a
  used : ∀ k ∈ s.used, 1 ≤ k ∧ k ≤ n
  member : ∀ k : Int, 1 ≤ k → k ≤ n → a k ∈ values

section

variable [StrHash] {W E : Type} {depth n : Nat} {less : Comparison W E} {m₀ : TValue → TValue}
  {values : Set TValue} {lt : TValue → TValue → Prop} {a b : Int → TValue} {s s' : SortState W}
  {l u i j : Int}

/-- The sort ends with an error, and with the values in some order. An order of the values does
not come to this. -/
def Stopped (less : Comparison W E) (m₀ : TValue → TValue) (n : Nat) (values : Set TValue)
    (lt : TValue → TValue → Prop) (a : Int → TValue) (e : SortError E) (s : SortState W) : Prop :=
  (e = .tabsort ∨ ∃ raised, e = .compare raised) ∧ ¬Orders less lt values ∧
    ∃ b, Rearranged (stretch 1 n) a b ∧ Sorting m₀ n values b s

theorem Stopped.from {e : SortError E} (stopped : Stopped less m₀ n values lt b e s)
    (rearranged : Rearranged (stretch 1 n) a b) : Stopped less m₀ n values lt a e s := by
  obtain ⟨kind, disordered, c, rearranged', sorting⟩ := stopped
  exact ⟨kind, disordered, c, rearranged.trans rearranged', sorting⟩

/-! ## Single steps -/

theorem luaRawgeti_finishes {bad : SortError E → SortState W → Prop} (sorting : Sorting m₀ n values a s)
    (room : n + 1 < 2 ^ 31) (low : 1 ≤ i) (high : i ≤ n) :
    Finishes (fun v s' => v = a i ∧ Sorting m₀ n values a s') bad (luaRawgeti i) s := by
  obtain ⟨m, is, placed⟩ := sorting.table
  have small : Small i := by constructor <;> omega
  obtain ⟨tv, found, value⟩ := is.getint small
  have run : luaRawgeti (E := E) i s = .ok (tv.getD .nil) { s with used := i :: s.used } := by
    rw [luaRawgeti, found]
  apply Finishes.of_ok run
  refine ⟨value.trans (placed.inside i low high), ⟨m, is, placed⟩, ?_, sorting.member⟩
  intro k member
  rcases List.mem_cons.mp member with rfl | before
  · exact ⟨low, high⟩
  · exact sorting.used k before

theorem luaRawseti_finishes {bad : SortError E → SortState W → Prop} {m : TValue → TValue} (is : s.t.Is m)
    (small : Small i) (present : m (intKey i) ≠ .nil) (v : TValue) :
    Finishes (fun _ s' => s'.t.Is (update m (intKey i) v) ∧ s'.used = i :: s.used) bad
      (luaRawseti depth i v) s := by
  obtain ⟨t', stored, is'⟩ := (is.tsetr_present depth small present v).exists_ok
  rw [GCtab.tsetr, Num.num2int_ofInt small.1 small.2] at stored
  cases set : s.t.ljTabSetint depth i with
  | error e =>
      rw [set] at stored
      cases stored
  | ok r =>
      rw [set] at stored
      have isStored : r.2.store r.1 v = t' := Except.ok.inj stored
      have run : luaRawseti (E := E) depth i v s =
          .ok () { s with t := r.2.store r.1 v, used := i :: s.used } := by
        rw [luaRawseti, set]
      apply Finishes.of_ok run
      rw [isStored]
      exact ⟨is', rfl⟩

/-- Two values change places. -/
theorem set2_finishes {bad : SortError E → SortState W → Prop} (sorting : Sorting m₀ n values a s)
    (room : n + 1 < 2 ^ 31) (some : .nil ∉ values) (low : 1 ≤ i ∧ i ≤ n) (high : 1 ≤ j ∧ j ≤ n)
    {top below : TValue} (isTop : top = a j) (isBelow : below = a i) :
    Finishes (fun _ s' => Sorting m₀ n values (a ∘ Equiv.swap i j) s') bad (set2 depth i j top below) s := by
  obtain ⟨m, is, placed⟩ := sorting.table
  have present {k : Int} (inside : 1 ≤ k ∧ k ≤ n) : a k ≠ .nil := by
    intro isNil
    exact some (isNil ▸ sorting.member k inside.1 inside.2)
  have small {k : Int} (inside : 1 ≤ k ∧ k ≤ n) : Small k := by constructor <;> omega
  have presentMap {k : Int} (inside : 1 ≤ k ∧ k ≤ n) : m (intKey k) ≠ .nil := by
    rw [placed.inside k inside.1 inside.2]
    exact present inside
  rw [isTop, isBelow]
  apply (luaRawseti_finishes is (small low) (presentMap low) (a j)).bind
  rintro _ s' ⟨is', used⟩
  have stillPresent : update m (intKey i) (a j) (intKey j) ≠ .nil := by
    rw [update_apply]
    split
    · exact present high
    · exact presentMap high
  apply (luaRawseti_finishes is' (small high) stillPresent (a i)).mono
  · rintro _ s'' ⟨is'', used'⟩
    refine ⟨⟨_, is'', placed.swap room low high⟩, ?_, ?_⟩
    · intro k member
      rw [used', used] at member
      rcases List.mem_cons.mp member with rfl | member
      · exact high
      · rcases List.mem_cons.mp member with rfl | before
        · exact low
        · exact sorting.used k before
    · intro k least most
      have rearranged : Rearranged (stretch 1 n) a (a ∘ Equiv.swap i j) :=
        Rearranged.swap (S := stretch 1 n) low high a
      exact rearranged.all (P := (· ∈ values)) (fun k inside => sorting.member k inside.1 inside.2) k ⟨least, most⟩
  · exact fun _ _ raised => raised

theorem sortComp_finishes (sorting : Sorting m₀ n values a s) {x y : TValue} (first : x ∈ values)
    (second : y ∈ values) :
    Finishes (fun res s' => Sorting m₀ n values a s' ∧ (Orders less lt values → (res = true ↔ lt x y)))
      (Stopped less m₀ n values lt a) (sortComp less x y) s := by
  have kept (world : W) : Sorting m₀ n values a { s with world := world } :=
    ⟨sorting.table, sorting.used, sorting.member⟩
  cases answer : less x y s.world with
  | mk result world =>
      cases result with
      | ok res =>
          have run : sortComp less x y s = .ok res { s with world := world } := by rw [sortComp, answer]
          apply Finishes.of_ok run
          refine ⟨kept world, fun orders => ?_⟩
          obtain ⟨b, isAnswer, iff⟩ := orders.answers x first y second s.world
          rw [answer] at isAnswer
          rw [Except.ok.inj isAnswer]
          exact iff
      | error e =>
          have run : sortComp less x y s = .error (.compare e) { s with world := world } := by
            rw [sortComp, answer]
          apply Finishes.of_error run
          refine ⟨.inr ⟨e, rfl⟩, fun orders => ?_, a, .refl _ a, kept world⟩
          obtain ⟨b, isAnswer, -⟩ := orders.answers x first y second s.world
          rw [answer] at isAnswer
          cases isAnswer

/-! ## Scans -/

theorem scanUp_finishes {pivot : TValue} (room : n + 1 < 2 ^ 31) (isPivot : pivot ∈ values) (high : u ≤ n)
    {fuel : Nat} (sorting : Sorting m₀ n values a s) (low : 0 ≤ i) (inside : i < u) (enough : u - i ≤ fuel)
    (stops : Orders less lt values → ∃ c, i < c ∧ c ≤ u ∧ ¬lt (a c) pivot) :
    Finishes (fun r s' => Sorting m₀ n values a s' ∧ i < r.1 ∧ r.1 ≤ u ∧ r.2 = a r.1 ∧
        (Orders less lt values → (∀ k, i < k → k < r.1 → lt (a k) pivot) ∧ ¬lt (a r.1) pivot))
      (Stopped less m₀ n values lt a) (scanUp less u pivot fuel i) s := by
  induction fuel generalizing s i with
  | zero => omega
  | succ fuel induction =>
      rw [scanUp]
      apply (luaRawgeti_finishes sorting room (by omega) (by omega)).bind
      rintro ai s' ⟨isValue, sorting⟩
      rw [isValue]
      have member := sorting.member (i + 1) (by omega) (by omega)
      apply (sortComp_finishes sorting member isPivot).bind
      rintro res s' ⟨sorting, answers⟩
      by_cases goesOn : res = true
      · have isLess (orders : Orders less lt values) : lt (a (i + 1)) pivot := (answers orders).mp goesOn
        rw [if_pos goesOn]
        by_cases atEnd : i + 1 ≥ u
        · rw [if_pos atEnd]
          refine Finishes.throw ⟨.inl rfl, fun orders => ?_, a, .refl _ a, sorting⟩
          obtain ⟨c, above, below, notLess⟩ := stops orders
          have same : c = i + 1 := by omega
          exact notLess (same ▸ isLess orders)
        · rw [if_neg atEnd]
          have later (orders : Orders less lt values) : ∃ c, i + 1 < c ∧ c ≤ u ∧ ¬lt (a c) pivot := by
            obtain ⟨c, above, below, notLess⟩ := stops orders
            have other : c ≠ i + 1 := fun same => notLess (same ▸ isLess orders)
            exact ⟨c, by omega, below, notLess⟩
          apply (induction sorting (by omega) (by omega) (by omega) later).mono
          · rintro r s'' ⟨sorting, above, below, isValue, order⟩
            refine ⟨sorting, by omega, below, isValue, fun orders => ?_⟩
            refine ⟨fun k first last => ?_, (order orders).2⟩
            rcases Int.lt_or_eq_of_le (Int.add_one_le_of_lt first) with more | isFirst
            · exact (order orders).1 k more last
            · exact isFirst ▸ isLess orders
          · exact fun _ _ stopped => stopped
      · rw [if_neg goesOn]
        refine Finishes.pure ⟨sorting, by omega, by omega, rfl, fun orders => ?_⟩
        refine ⟨fun k first last => ?_, fun isLess => goesOn ((answers orders).mpr isLess)⟩
        omega

theorem scanDown_finishes {pivot : TValue} (room : n + 1 < 2 ^ 31) (isPivot : pivot ∈ values) (low : 1 ≤ l)
    {fuel : Nat} (sorting : Sorting m₀ n values a s) (high : j ≤ n + 1) (inside : l < j)
    (enough : j - l ≤ fuel) (stops : Orders less lt values → ∃ c, l ≤ c ∧ c < j ∧ ¬lt pivot (a c)) :
    Finishes (fun r s' => Sorting m₀ n values a s' ∧ l ≤ r.1 ∧ r.1 < j ∧ r.2 = a r.1 ∧
        (Orders less lt values → (∀ k, r.1 < k → k < j → lt pivot (a k)) ∧ ¬lt pivot (a r.1)))
      (Stopped less m₀ n values lt a) (scanDown less l pivot fuel j) s := by
  induction fuel generalizing s j with
  | zero => omega
  | succ fuel induction =>
      rw [scanDown]
      apply (luaRawgeti_finishes sorting room (by omega) (by omega)).bind
      rintro aj s' ⟨isValue, sorting⟩
      rw [isValue]
      have member := sorting.member (j - 1) (by omega) (by omega)
      apply (sortComp_finishes sorting isPivot member).bind
      rintro res s' ⟨sorting, answers⟩
      by_cases goesOn : res = true
      · have more (orders : Orders less lt values) : lt pivot (a (j - 1)) := (answers orders).mp goesOn
        rw [if_pos goesOn]
        by_cases atEnd : j - 1 ≤ l
        · rw [if_pos atEnd]
          refine Finishes.throw ⟨.inl rfl, fun orders => ?_, a, .refl _ a, sorting⟩
          obtain ⟨c, above, below, notMore⟩ := stops orders
          have same : c = j - 1 := by omega
          exact notMore (same ▸ more orders)
        · rw [if_neg atEnd]
          have later (orders : Orders less lt values) : ∃ c, l ≤ c ∧ c < j - 1 ∧ ¬lt pivot (a c) := by
            obtain ⟨c, above, below, notMore⟩ := stops orders
            have other : c ≠ j - 1 := fun same => notMore (same ▸ more orders)
            exact ⟨c, above, by omega, notMore⟩
          apply (induction sorting (by omega) (by omega) (by omega) later).mono
          · rintro r s'' ⟨sorting, above, below, isValue, order⟩
            refine ⟨sorting, above, by omega, isValue, fun orders => ?_⟩
            refine ⟨fun k first last => ?_, (order orders).2⟩
            rcases Int.lt_or_eq_of_le (Int.le_sub_one_of_lt last) with less | isLast
            · exact (order orders).1 k first less
            · exact isLast ▸ more orders
          · exact fun _ _ stopped => stopped
      · rw [if_neg goesOn]
        refine Finishes.pure ⟨sorting, by omega, by omega, rfl, fun orders => ?_⟩
        refine ⟨fun k first last => ?_, fun more => goesOn ((answers orders).mpr more)⟩
        omega

/-! ## Partitions -/

omit [StrHash] in
theorem stretch_inside (low : 1 ≤ l) (high : u ≤ n) : stretch l u ⊆ stretch 1 n :=
  fun _ inside => ⟨low.trans inside.1, inside.2.trans high⟩

theorem partition_finishes {pivot : TValue} (room : n + 1 < 2 ^ 31) (some : .nil ∉ values) (low : 1 ≤ l)
    (high : u ≤ n) {fuel : Nat} (sorting : Sorting m₀ n values a s) (first : l ≤ i) (beforeLast : i < u - 1)
    (meet : i ≤ j) (above : l < j) (last : j ≤ u - 1) (isPivot : a (u - 1) = pivot) (enough : u - i < fuel)
    (enough' : j - l < fuel)
    (scanned : Orders less lt values → NoneAbove lt pivot a l i ∧ NoneBelow lt pivot a j u) :
    Finishes (fun i' s' => ∃ b, Rearranged (stretch l u) a b ∧ Sorting m₀ n values b s' ∧ b (u - 1) = pivot ∧
        l < i' ∧ i' ≤ u ∧ (Orders less lt values →
          i' < u ∧ NoneAbove lt pivot b l (i' - 1) ∧ NoneBelow lt pivot b i' u))
      (Stopped less m₀ n values lt a) (partition depth less l u pivot fuel i j) s := by
  induction fuel generalizing s a i j with
  | zero => omega
  | succ fuel induction =>
      have member : pivot ∈ values := isPivot ▸ sorting.member (u - 1) (by omega) (by omega)
      have stopsUp (orders : Orders less lt values) : ∃ c, i < c ∧ c ≤ u ∧ ¬lt (a c) pivot :=
        ⟨u - 1, beforeLast, by omega, by rw [isPivot]; exact orders.weak.irrefl pivot member⟩
      have stopsDown (orders : Orders less lt values) : ∃ c, l ≤ c ∧ c < j ∧ ¬lt pivot (a c) :=
        ⟨l, le_rfl, above, (scanned orders).1 l le_rfl first⟩
      rw [partition]
      apply (scanUp_finishes room member high sorting (by omega) (by omega) (by omega) stopsUp).bind
      rintro ⟨i', ai⟩ s' ⟨sorting, further, inside, isAi, order⟩
      apply (scanDown_finishes room member low sorting (by omega) above (by omega) stopsDown).bind
      rintro ⟨j', aj⟩ s' ⟨sorting, inside', further', isAj, order'⟩
      dsimp only at further inside isAi order inside' further' isAj order' ⊢
      have noneAbove (orders : Orders less lt values) : NoneAbove lt pivot a l (i' - 1) := by
        intro k least most
        by_cases old : k ≤ i
        · exact (scanned orders).1 k least old
        · exact orders.weak.asymm (sorting.member k (by omega) (by omega)) member
            ((order orders).1 k (by omega) (by omega))
      have noneBelow (orders : Orders less lt values) : NoneBelow lt pivot a (j' + 1) u := by
        intro k least most
        by_cases old : j ≤ k
        · exact (scanned orders).2 k old most
        · exact orders.weak.asymm member (sorting.member k (by omega) (by omega))
            ((order' orders).1 k (by omega) (by omega))
      by_cases crossed : j' < i'
      · rw [if_pos crossed]
        refine Finishes.pure ⟨a, .refl _ a, sorting, isPivot, by omega, inside, fun orders => ⟨?_, ?_, ?_⟩⟩
        · by_contra past
          have isLess := (order orders).1 (u - 1) beforeLast (by omega)
          rw [isPivot] at isLess
          exact orders.weak.irrefl pivot member isLess
        · exact noneAbove orders
        · exact fun k least most => noneBelow orders k (by omega) most
      · rw [if_neg crossed]
        have isFirst : i' ∈ stretch l u := ⟨by omega, inside⟩
        have isSecond : j' ∈ stretch l u := ⟨inside', by omega⟩
        have swapped : Rearranged (stretch l u) a (a ∘ Equiv.swap i' j') :=
          Rearranged.swap (S := stretch l u) isFirst isSecond a
        have kept {k : Int} (other : k ≠ i') (other' : k ≠ j') : (a ∘ Equiv.swap i' j') k = a k :=
          congrArg a (Equiv.swap_apply_of_ne_of_ne other other')
        have atFirst : (a ∘ Equiv.swap i' j') i' = a j' := congrArg a (Equiv.swap_apply_left i' j')
        have atSecond : (a ∘ Equiv.swap i' j') j' = a i' := congrArg a (Equiv.swap_apply_right i' j')
        apply (set2_finishes sorting room some (by omega) (by omega) isAj isAi).bind
        intro _ s' sorting
        have isPivot' : (a ∘ Equiv.swap i' j') (u - 1) = pivot := by
          rw [kept (by omega) (by omega), isPivot]
        have scanned' (orders : Orders less lt values) : NoneAbove lt pivot (a ∘ Equiv.swap i' j') l i' ∧
            NoneBelow lt pivot (a ∘ Equiv.swap i' j') j' u := by
          constructor
          · intro k least most
            rcases Int.lt_or_eq_of_le most with inner | same
            · rw [kept (by omega) (by omega)]
              exact noneAbove orders k least (by omega)
            · rw [same, atFirst]
              exact (order' orders).2
          · intro k least most
            rcases Int.lt_or_eq_of_le least with inner | same
            · rw [kept (by omega) (by omega)]
              exact noneBelow orders k (by omega) most
            · rw [← same, atSecond]
              exact (order orders).2
        apply (induction sorting (by omega) (by omega) (by omega) (by omega) (by omega) isPivot' (by omega)
          (by omega) scanned').mono
        · rintro r s'' ⟨b, rearranged, rest⟩
          exact ⟨b, swapped.trans rearranged, rest⟩
        · exact fun e s'' stopped => stopped.from (swapped.mono (stretch_inside low high))

theorem sortMiddle_finishes (room : n + 1 < 2 ^ 31) (some : .nil ∉ values) (low : 1 ≤ l) (high : u ≤ n)
    (sorting : Sorting m₀ n values a s) (wide : l + 1 < u)
    (ordered : Orders less lt values → ¬lt (a u) (a l)) :
    Finishes (fun _ s' => ∃ b, Rearranged (stretch l u) a b ∧ Sorting m₀ n values b s' ∧
        (Orders less lt values → ¬lt (b ((l + u) / 2)) (b l) ∧ ¬lt (b u) (b ((l + u) / 2))))
      (Stopped less m₀ n values lt a) (sortMiddle depth less l u) s := by
  have middle : l < (l + u) / 2 ∧ (l + u) / 2 < u := by omega
  rw [sortMiddle]
  generalize (l + u) / 2 = i at middle ⊢
  have left : l ∈ stretch l u := ⟨le_rfl, by omega⟩
  have right : u ∈ stretch l u := ⟨by omega, le_rfl⟩
  have inner : i ∈ stretch l u := ⟨middle.1.le, middle.2.le⟩
  have memberL := sorting.member l (by omega) (by omega)
  have memberI := sorting.member i (by omega) (by omega)
  have memberU := sorting.member u (by omega) (by omega)
  apply (luaRawgeti_finishes sorting room (by omega) (by omega)).bind
  rintro ai s' ⟨isAi, sorting⟩
  apply (luaRawgeti_finishes sorting room (by omega) (by omega)).bind
  rintro al s' ⟨isAl, sorting⟩
  rw [isAi, isAl]
  apply (sortComp_finishes sorting memberI memberL).bind
  rintro res s' ⟨sorting, answers⟩
  by_cases lower : res = true
  · rw [if_pos lower]
    apply (set2_finishes sorting room some (by omega) (by omega) rfl rfl).mono
    · intro _ s'' sorting
      refine ⟨_, Rearranged.swap (S := stretch l u) inner left a, sorting, fun orders => ?_⟩
      have isLess := (answers orders).mp lower
      have atI : (a ∘ Equiv.swap i l) i = a l := congrArg a (Equiv.swap_apply_left i l)
      have atL : (a ∘ Equiv.swap i l) l = a i := congrArg a (Equiv.swap_apply_right i l)
      have atU : (a ∘ Equiv.swap i l) u = a u :=
        congrArg a (Equiv.swap_apply_of_ne_of_ne (by omega) (by omega))
      rw [atI, atL, atU]
      exact ⟨orders.weak.asymm memberI memberL isLess, ordered orders⟩
    · exact fun _ _ stopped => stopped
  · rw [if_neg lower]
    apply (luaRawgeti_finishes sorting room (by omega) (by omega)).bind
    rintro au s' ⟨isAu, sorting⟩
    rw [isAu]
    apply (sortComp_finishes sorting memberU memberI).bind
    rintro res' s' ⟨sorting, answers'⟩
    by_cases upper : res' = true
    · rw [if_pos upper]
      apply (set2_finishes sorting room some (by omega) (by omega) rfl rfl).mono
      · intro _ s'' sorting
        refine ⟨_, Rearranged.swap (S := stretch l u) inner right a, sorting, fun orders => ?_⟩
        have isLess := (answers' orders).mp upper
        have atI : (a ∘ Equiv.swap i u) i = a u := congrArg a (Equiv.swap_apply_left i u)
        have atU : (a ∘ Equiv.swap i u) u = a i := congrArg a (Equiv.swap_apply_right i u)
        have atL : (a ∘ Equiv.swap i u) l = a l :=
          congrArg a (Equiv.swap_apply_of_ne_of_ne (by omega) (by omega))
        rw [atI, atL, atU]
        exact ⟨ordered orders, orders.weak.asymm memberU memberI isLess⟩
      · exact fun _ _ stopped => stopped
    · rw [if_neg upper]
      refine Finishes.pure ⟨a, .refl _ a, sorting, fun orders => ?_⟩
      exact ⟨fun isLess => lower ((answers orders).mpr isLess), fun isLess => upper ((answers' orders).mpr isLess)⟩

theorem split_finishes (room : n + 1 < 2 ^ 31) (some : .nil ∉ values) (low : 1 ≤ l) (high : u ≤ n)
    {fuel : Nat} (sorting : Sorting m₀ n values a s) (wide : l + 2 < u) (enough : u - l < fuel)
    (ordered : Orders less lt values → ¬lt (a ((l + u) / 2)) (a l) ∧ ¬lt (a u) (a ((l + u) / 2))) :
    Finishes (fun i s' => ∃ b, Rearranged (stretch l u) a b ∧ Sorting m₀ n values b s' ∧ l < i ∧ i ≤ u ∧
        (Orders less lt values → Divided lt b l i u))
      (Stopped less m₀ n values lt a) (split depth less fuel l u) s := by
  have middle : l < (l + u) / 2 ∧ (l + u) / 2 < u := by omega
  rw [split]
  generalize (l + u) / 2 = i at middle ordered ⊢
  apply (luaRawgeti_finishes sorting room (by omega) (by omega)).bind
  rintro pivot s' ⟨isPivot, sorting⟩
  apply (luaRawgeti_finishes sorting room (by omega) (by omega)).bind
  rintro last s' ⟨isLast, sorting⟩
  have inner : i ∈ stretch l u := ⟨middle.1.le, middle.2.le⟩
  have nearLast : u - 1 ∈ stretch l u := ⟨by omega, by omega⟩
  have swapped : Rearranged (stretch l u) a (a ∘ Equiv.swap i (u - 1)) :=
    Rearranged.swap (S := stretch l u) inner nearLast a
  have parked : (a ∘ Equiv.swap i (u - 1)) (u - 1) = pivot :=
    (congrArg a (Equiv.swap_apply_right i (u - 1))).trans isPivot.symm
  have kept {k : Int} (other : k ≠ i) (other' : k ≠ u - 1) : (a ∘ Equiv.swap i (u - 1)) k = a k :=
    congrArg a (Equiv.swap_apply_of_ne_of_ne other other')
  apply (set2_finishes sorting room some (by omega) (by omega) isLast isPivot).bind
  intro _ s' sorting
  have scanned (orders : Orders less lt values) : NoneAbove lt pivot (a ∘ Equiv.swap i (u - 1)) l l ∧
      NoneBelow lt pivot (a ∘ Equiv.swap i (u - 1)) (u - 1) u := by
    have bounds := ordered orders
    rw [← isPivot] at bounds
    constructor
    · intro k least most
      have same : k = l := by omega
      rw [same, kept (by omega) (by omega)]
      exact bounds.1
    · intro k least most
      rcases Int.lt_or_eq_of_le least with isLast | same
      · have same : k = u := by omega
        rw [same, kept (by omega) (by omega)]
        exact bounds.2
      · rw [← same, parked]
        exact orders.weak.irrefl pivot (parked ▸ sorting.member (u - 1) (by omega) (by omega))
  have parts : Finishes _ _ (partition depth less l u pivot fuel l (u - 1)) s' :=
    partition_finishes room some low high sorting le_rfl (by omega) (by omega) (by omega) le_rfl parked
      (by omega) (by omega) scanned
  refine Finishes.bind (parts.mono (fun _ _ done => done) fun e s'' stopped =>
    stopped.from (swapped.mono (stretch_inside low high))) ?_
  rintro i' s' ⟨b, rearranged, sorting, isPivot', above, inside, order⟩
  apply (luaRawgeti_finishes sorting room (by omega) (by omega)).bind
  rintro last' s' ⟨isLast', sorting⟩
  apply (luaRawgeti_finishes sorting room (by omega) (by omega)).bind
  rintro ai s' ⟨isAi, sorting⟩
  apply (set2_finishes sorting room some (by omega) (by omega) isAi isLast').bind
  intro _ s' sorting
  have isPlace : i' ∈ stretch l u := ⟨above.le, inside⟩
  have back : Rearranged (stretch l u) b (b ∘ Equiv.swap (u - 1) i') :=
    Rearranged.swap (S := stretch l u) nearLast isPlace b
  refine Finishes.pure ⟨_, (swapped.trans rearranged).trans back, sorting, above, inside, fun orders => ?_⟩
  obtain ⟨strict, noneAbove, noneBelow⟩ := order orders
  have atPlace : (b ∘ Equiv.swap (u - 1) i') i' = pivot :=
    (congrArg b (Equiv.swap_apply_right (u - 1) i')).trans isPivot'
  have stays {k : Int} (other : k ≠ u - 1) (other' : k ≠ i') : (b ∘ Equiv.swap (u - 1) i') k = b k :=
    congrArg b (Equiv.swap_apply_of_ne_of_ne other other')
  constructor
  · intro k least most
    rw [atPlace, stays (by omega) (by omega)]
    exact noneAbove k least most
  · intro k least most
    rw [atPlace]
    by_cases isNear : k = u - 1
    · have same : (b ∘ Equiv.swap (u - 1) i') (u - 1) = b i' := congrArg b (Equiv.swap_apply_left (u - 1) i')
      rw [isNear, same]
      exact noneBelow i' le_rfl inside
    · rw [stays isNear (by omega)]
      exact noneBelow k (by omega) most


/-! ## The sort -/

/-- The first and the last value in order. -/
theorem sortEnds_finishes (room : n + 1 < 2 ^ 31) (some : .nil ∉ values) (low : 1 ≤ l) (high : u ≤ n)
    (wide : l < u) (sorting : Sorting m₀ n values a s) :
    Finishes (fun _ s' => ∃ b, Rearranged (stretch l u) a b ∧ Sorting m₀ n values b s' ∧
        (Orders less lt values → ¬lt (b u) (b l)))
      (Stopped less m₀ n values lt a) (sortEnds depth less l u) s := by
  have left : l ∈ stretch l u := ⟨le_rfl, by omega⟩
  have right : u ∈ stretch l u := ⟨by omega, le_rfl⟩
  have memberL := sorting.member l (by omega) (by omega)
  have memberU := sorting.member u (by omega) (by omega)
  rw [sortEnds]
  apply (luaRawgeti_finishes sorting room (by omega) (by omega)).bind
  rintro al s' ⟨isAl, sorting⟩
  apply (luaRawgeti_finishes sorting room (by omega) (by omega)).bind
  rintro au s' ⟨isAu, sorting⟩
  rw [isAl, isAu]
  apply (sortComp_finishes sorting memberU memberL).bind
  rintro res s' ⟨sorting, answers⟩
  by_cases swap : res = true
  · rw [if_pos swap]
    apply (set2_finishes sorting room some (by omega) (by omega) rfl rfl).mono
    · intro _ s'' sorting
      refine ⟨_, Rearranged.swap (S := stretch l u) left right a, sorting, fun orders => ?_⟩
      have atL : (a ∘ Equiv.swap l u) l = a u := congrArg a (Equiv.swap_apply_left l u)
      have atU : (a ∘ Equiv.swap l u) u = a l := congrArg a (Equiv.swap_apply_right l u)
      rw [atL, atU]
      exact orders.weak.asymm memberU memberL ((answers orders).mp swap)
    · exact fun _ _ stopped => stopped
  · rw [if_neg swap]
    exact Finishes.pure ⟨a, .refl _ a, sorting, fun orders isLess => swap ((answers orders).mpr isLess)⟩

theorem auxsort_finishes (room : n + 1 < 2 ^ 31) (some : .nil ∉ values) {fuel : Nat} (low : 1 ≤ l) (high : u ≤ n)
    (enough : u - l + 1 < fuel) (fueled : 0 < fuel) (sorting : Sorting m₀ n values a s) :
    Finishes (fun _ s' => ∃ b, Rearranged (stretch l u) a b ∧ Sorting m₀ n values b s' ∧
        (Orders less lt values → Ascending lt b l u))
      (Stopped less m₀ n values lt a) (auxsort depth less fuel l u) s := by
  induction fuel generalizing s a l u with
  | zero => omega
  | succ fuel induction =>
      have inValues {b : Int → TValue} {s : SortState W} (sorting : Sorting m₀ n values b s) :
          ∀ i, l ≤ i → i ≤ u → b i ∈ values :=
        fun i least most => sorting.member i (low.trans least) (most.trans high)
      rw [auxsort]
      by_cases wide : l < u
      · rw [if_pos wide]
        apply (sortEnds_finishes room some low high wide sorting).bind
        rintro _ s' ⟨b, rearranged, sorting, ordered⟩
        have from' {e : SortError E} {s : SortState W} {c : Int → TValue} (rearranged : Rearranged (stretch l u) a c)
            (stopped : Stopped less m₀ n values lt c e s) : Stopped less m₀ n values lt a e s :=
          stopped.from (rearranged.mono (stretch_inside low high))
        by_cases two : u - l = 1
        · rw [if_pos two]
          refine Finishes.pure ⟨b, rearranged, sorting, fun orders => ?_⟩
          intro i j least le most
          by_cases same : i = j
          · rw [same]
            exact orders.weak.irrefl _ (inValues sorting j (by omega) most)
          · have isLow : i = l := by omega
            have isHigh : j = u := by omega
            rw [isLow, isHigh]
            exact ordered orders
        · rw [if_neg two]
          refine Finishes.bind ((sortMiddle_finishes room some low high sorting (by omega) ordered).mono
            (fun _ _ done => done) fun _ _ => from' rearranged) ?_
          rintro _ s' ⟨c, rearranged', sorting, ordered'⟩
          have rearranged := rearranged.trans rearranged'
          by_cases three : u - l = 2
          · rw [if_pos three]
            have middle : (l + u) / 2 = l + 1 := by omega
            rw [middle] at ordered'
            refine Finishes.pure ⟨c, rearranged, sorting, fun orders => ?_⟩
            have divided : Divided lt c l (l + 1) u := by
              constructor
              · intro i least most
                have same : i = l := by omega
                rw [same]
                exact (ordered' orders).1
              · intro i least most
                have same : i = u := by omega
                rw [same]
                exact (ordered' orders).2
            apply divided.ascending orders.weak (inValues sorting) (by omega) (by omega)
            · exact .short orders.weak (fun i least most => inValues sorting i least (by omega)) (by omega)
            · exact .short orders.weak (fun i least most => inValues sorting i (by omega) most) (by omega)
          · rw [if_neg three]
            refine Finishes.bind ((split_finishes room some low high sorting (by omega) (by omega) ordered').mono
              (fun _ _ done => done) fun _ _ => from' rearranged) ?_
            rintro k s' ⟨d, rearranged', sorting, above, below, divided⟩
            have rearranged := rearranged.trans rearranged'
            have front : stretch l (k - 1) ⊆ stretch l u := fun _ inside => ⟨inside.1, by have := inside.2; omega⟩
            have behind : stretch (k + 1) u ⊆ stretch l u := fun _ inside => ⟨by have := inside.1; omega, inside.2⟩
            by_cases smaller : k - l < u - k
            · rw [if_pos smaller]
              refine Finishes.bind ((induction low (by omega) (by omega) (by omega) sorting).mono
                (fun _ _ done => done) fun _ _ => from' rearranged) ?_
              rintro _ s' ⟨e, rearrangedFront, sorting, ascending⟩
              have rearranged := rearranged.trans (rearrangedFront.mono front)
              refine (induction (by omega) high (by omega) (by omega) sorting).mono ?_ fun _ _ => from' rearranged
              rintro _ s'' ⟨f, rearrangedBehind, sorting, ascending'⟩
              refine ⟨f, rearranged.trans (rearrangedBehind.mono behind), sorting, fun orders => ?_⟩
              have divided := ((divided orders).rearrangedFront rearrangedFront).rearrangedBehind rearrangedBehind
              apply divided.ascending orders.weak (inValues sorting) above.le below _ (ascending' orders)
              apply (ascending orders).congr
              intro i _ most
              apply rearrangedBehind.outside
              rintro ⟨least, -⟩
              omega
            · rw [if_neg smaller]
              refine Finishes.bind ((induction (by omega) high (by omega) (by omega) sorting).mono
                (fun _ _ done => done) fun _ _ => from' rearranged) ?_
              rintro _ s' ⟨e, rearrangedBehind, sorting, ascending⟩
              have rearranged := rearranged.trans (rearrangedBehind.mono behind)
              refine (induction low (by omega) (by omega) (by omega) sorting).mono ?_ fun _ _ => from' rearranged
              rintro _ s'' ⟨f, rearrangedFront, sorting, ascending'⟩
              refine ⟨f, rearranged.trans (rearrangedFront.mono front), sorting, fun orders => ?_⟩
              have divided := ((divided orders).rearrangedBehind rearrangedBehind).rearrangedFront rearrangedFront
              apply divided.ascending orders.weak (inValues sorting) above.le below (ascending' orders)
              apply (ascending orders).congr
              intro i least _
              apply rearrangedFront.outside
              rintro ⟨-, most⟩
              omega
      · rw [if_neg wide]
        refine Finishes.pure ⟨a, .refl _ a, sorting, fun orders => ?_⟩
        exact .short orders.weak (inValues sorting) (by omega)

end

/-! ## What a program sees -/

/-- The values from 1 to `n`. -/
def elements [StrHash] (t : GCtab) (n : Nat) : Set TValue := fun v => ∃ k : Int, 1 ≤ k ∧ k ≤ n ∧ v = t.index (intKey k)

/-- The values from 1 to `n` have been put into some order, and no other place has been used. -/
structure Permuted [StrHash] {W : Type} (t : GCtab) (n : Nat) (s : SortState W) : Prop where
  perm : ((upTo 1 n).map fun k => s.t.index (intKey k)).Perm ((upTo 1 n).map fun k => t.index (intKey k))
  others : ∀ k : TValue, (∀ j : Int, 1 ≤ j → j ≤ n → k.stored ≠ intKey j) → s.t.index k = t.index k
  used : ∀ k ∈ s.used, 1 ≤ k ∧ k ≤ n

/-- There are too few places for the sum of two of them to overflow. -/
theorem GCtab.Is.sequence_small [StrHash] {t : GCtab} {m : TValue → TValue} (is : t.Is m) {n : Nat}
    (sequence : Sequence m n) : n < 2 ^ 30 := by
  have limit : maxAsize + 2 ^ maxHbits + 1 < 2 ^ 30 := by decide
  have asize := is.wf.small
  have nodes : t.hmask < 2 ^ maxHbits := is.limited
  obtain ⟨absent, first, few, isAbsent⟩ := exists_absent is.wf is.limited is.holds
  unfold places at few
  by_contra many
  have isPlace := sequence absent (by omega) (by omega)
  have present : foundInt m absent = true := decide_eq_true (isPlace.mpr (by omega))
  rw [present] at isAbsent
  cases isAbsent

theorem Sorting.permuted [StrHash] {W : Type} {t : GCtab} {m₀ : TValue → TValue} {n : Nat} {values : Set TValue}
    {a : Int → TValue} {s : SortState W} (is : t.Is m₀) (room : n + 1 < 2 ^ 31) (sorting : Sorting m₀ n values a s)
    (rearranged : Rearranged (stretch 1 n) (fun k => m₀ (intKey k)) a) :
    Permuted t n s ∧ ∀ k : Int, 1 ≤ k → k ≤ n → s.t.index (intKey k) = a k := by
  obtain ⟨m, is', placed⟩ := sorting.table
  have now {k : Int} (member : k ∈ upTo 1 n) : s.t.index (intKey k) = a k := by
    obtain ⟨low, high⟩ := mem_upTo.mp member
    rw [is'.index_intKey (by omega), placed.inside k low high]
  have before {k : Int} (member : k ∈ upTo 1 n) : t.index (intKey k) = m₀ (intKey k) := by
    obtain ⟨low, high⟩ := mem_upTo.mp member
    exact is.index_intKey (by omega)
  refine ⟨⟨?_, fun k other => ?_, sorting.used⟩, fun k low high => now (mem_upTo.mpr ⟨low, high⟩)⟩
  · rw [List.map_congr_left fun k member => now member, List.map_congr_left fun k member => before member]
    exact rearranged.perm ((upTo_pairwise 1 n).imp fun below => below.ne) fun _ => mem_upTo
  · apply index_kept is is'
    intro settable
    apply placed.outside
    exact fun j low high same => other j low high same

/-- `table.sort` ends with the values of a sequence in some order, with all other fields as they were,
and without having used another index. It may only fail with an error of the comparison or for an
"invalid order function", and not when the comparison is a strict weak order: then the values ascend. -/
theorem table_sort [StrHash] {W E : Type} (less : Comparison W E) (lt : TValue → TValue → Prop) (depth : Nat)
    {t : GCtab} (reached : Reached (depth + 2) t) {n : Nat} (sequence : Sequence t.index n) (world : W) :
    n < 2 ^ 30 ∧ ∃ enough, ∀ fuel, enough ≤ fuel →
      Finishes
        (fun _ s => Permuted t n s ∧
          (Orders less lt (elements t n) → Ascending lt (fun k => s.t.index (intKey k)) 1 n))
        (fun e s => Permuted t n s ∧ (e = .tabsort ∨ ∃ raised, e = .compare raised) ∧
          ¬Orders less lt (elements t n))
        (tableSort (depth + 2) less fuel) ⟨t, world, []⟩ := by
  obtain ⟨wf, limited⟩ := reached.wf
  obtain ⟨m, holds⟩ := wf.exists_holds
  have is : t.Is m := ⟨wf, limited, holds⟩
  have isSequence := Sequence.of_index is sequence
  have few := is.sequence_small isSequence
  obtain ⟨room, len, ⟨enough, settles⟩, isLen⟩ := is.len isSequence
  have some : .nil ∉ elements t n := by
    rintro ⟨k, low, high, isNil⟩
    exact (sequence k low (by omega)).mpr high isNil.symm
  have start : Sorting m n (elements t n) (fun k => m (intKey k)) (⟨t, world, []⟩ : SortState W) := by
    refine ⟨⟨m, is, fun _ _ _ => rfl, fun _ _ => rfl⟩, fun _ member => ?_, fun k low high => ?_⟩
    · cases member
    · exact ⟨k, low, high, (is.index_intKey (by omega)).symm⟩
  refine ⟨few, enough, fun fuel isEnough => ?_⟩
  have run : tableSort (depth + 2) less fuel ⟨t, world, []⟩ = auxsort (depth + 2) less (n + 2) 1 n ⟨t, world, []⟩ := by
    rw [tableSort, settles fuel isEnough]
    change auxsort (depth + 2) less (len.toInt.toNat + 2) 1 len.toInt _ = _
    rw [isLen]
    rfl
  rw [Finishes, run]
  have sorted : Finishes _ _ (auxsort (depth + 2) less (n + 2) 1 n) (⟨t, world, []⟩ : SortState W) :=
    @auxsort_finishes _ _ _ _ _ _ _ _ lt _ _ _ _ room some _ le_rfl le_rfl (by omega) (by omega) start
  apply sorted.mono
  · rintro _ s ⟨b, rearranged, sorting, ascending⟩
    obtain ⟨permuted, now⟩ := sorting.permuted is room rearranged
    exact ⟨permuted, fun orders => (ascending orders).congr now⟩
  · rintro e s ⟨kind, disordered, b, rearranged, sorting⟩
    exact ⟨(sorting.permuted is room rearranged).1, kind, disordered⟩

/-- The table with `true` at 1 and `false` at 2. -/
def twoTable : GCtab := oneTable.store (.array 2) (.bool false)

section

variable [StrHash]

theorem twoTable_reached : Reached 2 twoTable :=
  oneTable_reached.call (rfl : TabCall.run 2 oneTable (.setint 2 (.bool false)) = .ok twoTable)

theorem twoTable_sequence : Sequence twoTable.index 2 := by
  obtain ⟨wf, limited⟩ := oneTable_reached.wf
  obtain ⟨m, holds⟩ := wf.exists_holds
  have is : oneTable.Is m := ⟨wf, limited, holds⟩
  have entry : oneTable.Entry (intKey 2) (.array 2) := ⟨(by decide : 2 < 4), rfl⟩
  have is' : twoTable.Is (update m (intKey 2) (.bool false)) := is.store entry _
  intro k low high
  rw [is'.index_intKey (by omega), update_apply]
  split
  · next same =>
      have isTwo := intKey_inj (by omega) (by omega) same
      exact iff_of_true (by simp) (by omega)
  · next other =>
      have notTwo : k ≠ 2 := fun same => other (congrArg intKey same)
      rw [Sequence.of_index is oneTable_sequence k low high]
      omega

end

/-- `false` is below `true`. -/
def falseFirst : Comparison Unit Unit := fun a b w => (.ok (a == .bool false && b == .bool true), w)

theorem table_sort_two : ∃ _ : StrHash,
    2 < 2 ^ 30 ∧ ∃ enough, ∀ fuel, enough ≤ fuel →
      Finishes
        (fun _ s => Permuted twoTable 2 s ∧ (Orders falseFirst (fun a b => a = .bool false ∧ b = .bool true)
          (elements twoTable 2) →
            Ascending (fun a b => a = .bool false ∧ b = .bool true) (fun k => s.t.index (intKey k)) 1 (2 : Nat)))
        (fun e s => Permuted twoTable 2 s ∧ (e = .tabsort ∨ ∃ raised, e = .compare raised) ∧
          ¬Orders falseFirst (fun a b => a = .bool false ∧ b = .bool true) (elements twoTable 2))
        (tableSort 2 falseFirst fuel) ⟨twoTable, (), []⟩ := by
  let _ : StrHash := ⟨fun _ => 0⟩
  exact ⟨_, table_sort falseFirst (fun a b => a = .bool false ∧ b = .bool true) 0 twoTable_reached
    twoTable_sequence ()⟩

end TvmJit.Tab
