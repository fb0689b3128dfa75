import Noxisa.UserPageTable

/-!
# What the table builder does to the kernel's half

Two invariants of the walk.  `Tables` is that of a walk that stays in the lower
half of the new PML4: every table it can reach was made by this call, each at
its level, and the upper half is the copy it was.  `Exposed` is that of a walk
that does not: whatever memory it writes to, it sets the USER bit in each word
it writes, so a USER bit in the upper half of the new PML4 stays.

A walk of the first kind writes to its own frames only (`mapPages_tables`); one
address with bit 47 set leaves a USER bit for good (`mapPages_exposed`).
-/

namespace UserPageTable

open ByteMemory ElfLoader FrameAllocator MachineWord PhysicalMemory

/-- **A walk in the lower half.**  `lvl` is the level of each table of the call:
4 for the PML4 down to 1 for the tables of leaf entries. -/
structure Tables (env : Env) (lvl : Nat → Option Nat) (pml4 : Nat) (upper : Nat → Nat)
    (m : Memory) : Prop where
  call : CallSound env m
  top : lvl pml4 = some 4
  own : ∀ f n, lvl f = some n → f ∈ m.trace.taken
  /-- a present entry points one level down -/
  down : ∀ f n i, lvl f = some (n + 2) → i < 512 → (f = pml4 → i < 256) →
    m.readWord (f + 8 * i) &&& pagePresent ≠ 0 →
    lvl (m.readWord (f + 8 * i) &&& addrMask) = some (n + 1)
  upper_eq : ∀ i, 256 ≤ i → i < 512 → m.readWord (pml4 + 8 * i) = upper i

/-- **A walk that may have gone anywhere.**  The frames are sound, and if
`user`, an entry of the upper half has the USER bit. -/
structure Exposed (env : Env) (pml4 : Nat) (user : Prop) (m : Memory) : Prop where
  sound : Sound env.limit m.pmm (m.trace.taken ++ env.held)
  taken : pml4 ∈ m.trace.taken
  seen : user → ∃ i, 256 ≤ i ∧ i < 512 ∧ m.readWord (pml4 + 8 * i) &&& pageUser ≠ 0

section

variable {ε : Type} {env : Env} {lvl : Nat → Option Nat} {pml4 : Nat} {upper : Nat → Nat}
  {m m' : Memory}

/-- Two slots of tables of the call are the same or do not overlap. -/
theorem slots_apart (h : CallSound env m) {f g i j : Nat} (hf : f ∈ m.trace.taken)
    (hg : g ∈ m.trace.taken) (hi : i < 512) (hj : j < 512) (hne : ¬(f = g ∧ i = j)) :
    g + 8 * j + 8 ≤ f + 8 * i ∨ f + 8 * i + 8 ≤ g + 8 * j := by
  obtain ⟨a, rfl⟩ := h.aligned hf
  obtain ⟨b, rfl⟩ := h.aligned hg
  simp only [pageSize] at hne ⊢
  omega

/-- **Tables by level.**  An entry that counts, by its table, the level below, its
index and its word, leads to a table one level down. -/
def LeadsDown (lvl : Nat → Option Nat) (Counts : Nat → Nat → Nat → Nat → Prop)
    (m : Memory) : Prop :=
  ∀ f n i, lvl f = some (n + 2) → i < 512 → Counts f n i (m.readWord (f + 8 * i)) →
    lvl (m.readWord (f + 8 * i) &&& addrMask) = some (n + 1)

/-- An entry is replaced by one that leads one level down, if it counts. -/
theorem LeadsDown.write {lvl : Nat → Option Nat} {Counts : Nat → Nat → Nat → Nat → Prop}
    {m : Memory} (h : LeadsDown lvl Counts m) {f n i v : Nat} (hf : lvl f = some (n + 1))
    (hdown : ∀ k, n = k + 1 → v < modulus ∧ (Counts f k i v → lvl (v &&& addrMask) = some n))
    (hword : ∀ g k j, lvl g = some k → j < 512 → ¬(f = g ∧ i = j) →
      (m.writeWord (f + 8 * i) v).readWord (g + 8 * j) = m.readWord (g + 8 * j)) :
    LeadsDown lvl Counts (m.writeWord (f + 8 * i) v) := by
  intro g k j hg hj hcounts
  by_cases hsame : f = g ∧ i = j
  · obtain ⟨rfl, rfl⟩ := hsame
    obtain rfl : n = k + 1 := by
      have := Option.some.inj (hf.symm.trans hg)
      omega
    obtain ⟨hv, hnext⟩ := hdown k rfl
    rw [readWord_writeWord_same m _ hv] at hcounts ⊢
    exact hnext hcounts
  · rw [hword g _ j hg hj hsame] at hcounts ⊢
    exact h g k j hg hj hcounts

/-- A new table can get any level: an empty entry does not count, and the entries of
the others are those they were. -/
theorem LeadsDown.grow {lvl : Nat → Option Nat} {Counts : Nat → Nat → Nat → Nat → Prop}
    {m m' : Memory} (h : LeadsDown lvl Counts m) {f : Nat} (n : Nat) (hnone : lvl f = none)
    (hempty : ∀ g k i, ¬Counts g k i 0)
    (hword : ∀ g k j, lvl g = some k → j < 512 →
      (m'.zeroFrame f).readWord (g + 8 * j) = m.readWord (g + 8 * j)) :
    LeadsDown (Function.update lvl f (some n)) Counts (m'.zeroFrame f) := by
  intro g k j hg hj hcounts
  by_cases heq : g = f
  · subst heq
    rw [readWord_zeroFrame_inside _ (by omega) (by simp only [pageSize]; omega)] at hcounts
    exact absurd hcounts (hempty _ _ _)
  · rw [Function.update_of_ne heq] at hg
    rw [hword g _ j hg hj] at hcounts ⊢
    have hdown := h g k j hg hj hcounts
    rw [Function.update_of_ne (fun hp => by rw [hp, hnone] at hdown; cases hdown)]
    exact hdown

/-- With the new table among the tables, all that have a level are. -/
theorem own_grow {lvl : Nat → Option Nat} {tables : List Nat}
    (h : ∀ g k, lvl g = some k → g ∈ tables) (f n : Nat) :
    ∀ g k, Function.update lvl f (some n) g = some k → g ∈ f :: tables := by
  intro g k hg
  by_cases heq : g = f
  · exact heq ▸ List.mem_cons_self
  · rw [Function.update_of_ne heq] at hg
    exact List.mem_cons_of_mem _ (h g k hg)

/-- What counts in the lower half: every present entry, of the PML4 those of its
lower half. -/
def CountsLower (pml4 : Nat) : Nat → Nat → Nat → Nat → Prop :=
  fun f _ i w => (f = pml4 → i < 256) ∧ w &&& pagePresent ≠ 0

/-- The tables of a process lead down, in the lower half. -/
theorem Tables.leadsDown (h : Tables env lvl pml4 upper m) :
    LeadsDown lvl (CountsLower pml4) m :=
  fun f n i hf hi hcounts => h.down f n i hf hi hcounts.1 hcounts.2

/-- Writing the entry of a table with something that points one level down. -/
theorem Tables.write (h : Tables env lvl pml4 upper m) {f n i v : Nat} (hf : lvl f = some (n + 1))
    (hi : i < 512) (hlow : f = pml4 → i < 256) (hv : v < modulus)
    (hdown : n ≠ 0 → v &&& pagePresent ≠ 0 → lvl (v &&& addrMask) = some n) :
    Tables env lvl pml4 upper (m.writeWord (f + 8 * i) v) := by
  have hown := h.own f _ hf
  have hdvd := h.call.aligned hown
  have hleads := h.leadsDown.write hf
    (fun k hk => ⟨hv, fun hcounts => hdown (by omega) hcounts.2⟩)
    (fun g k j hg hj hne =>
      readWord_writeWord_other m v (slots_apart h.call hown (h.own g k hg) hi hj hne))
  refine ⟨h.call.writeWord v hown (by omega) (by simp only [pageSize]; omega), h.top, h.own,
    fun g k j hg hj hglow hpresent => hleads g k j hg hj ⟨hglow, hpresent⟩, ?_⟩
  · intro j hlo hhi
    have hne : ¬(f = pml4 ∧ i = j) := by
      rintro ⟨rfl, rfl⟩
      have := hlow rfl
      omega
    rw [readWord_writeWord_other m v (slots_apart h.call hown (h.own pml4 _ h.top) hi hhi hne)]
    exact h.upper_eq j hlo hhi

/-- Zeroing a frame just handed out leaves the words of older frames alone. -/
theorem readWord_zeroNew (hl : env.limit + pageSize < modulus) (h : CallSound env m) {f : Nat}
    (ha : m.allocFrame = (some f, m')) {g j : Nat} (hg : g ∈ m.trace.taken) (hj : j < 512) :
    (m'.zeroFrame f).readWord (g + 8 * j) = m.readWord (g + 8 * j) := by
  have hfresh := h.fresh hl ha
  have hcall := h.zeroNew hl ha
  obtain ⟨p, -, rfl⟩ := allocFrame_some ha
  refine readWord_zeroFrame_other _ ?_
  have hne : f ≠ g := fun heq => hfresh (List.mem_append_left _ (heq ▸ hg))
  obtain ⟨a, rfl⟩ := hcall.aligned (f := f) List.mem_cons_self
  obtain ⟨b, rfl⟩ := hcall.aligned (List.mem_cons_of_mem _ hg)
  simp only [pageSize] at hne ⊢
  omega

/-- A new table, empty, at any level below. -/
theorem Tables.grow (hl : env.limit + pageSize < modulus) (h : Tables env lvl pml4 upper m)
    {f : Nat} (n : Nat) (ha : m.allocFrame = (some f, m')) :
    lvl f = none ∧
      Tables env (Function.update lvl f (some n)) pml4 upper (m'.zeroFrame f) := by
  have hfresh := h.call.fresh hl ha
  have hcall := h.call.zeroNew hl ha
  have hword : ∀ g j, g ∈ m.trace.taken → j < 512 →
      (m'.zeroFrame f).readWord (g + 8 * j) = m.readWord (g + 8 * j) :=
    fun g j hg hj => readWord_zeroNew hl h.call ha hg hj
  have hnone : lvl f = none := by
    cases hf : lvl f with
    | none => rfl
    | some k => exact absurd (List.mem_append_left _ (h.own f k hf)) hfresh
  have hgrown := h.leadsDown.grow n hnone (fun _ _ _ hcounts => hcounts.2 (Nat.zero_and _))
    (fun g k j hg hj => hword g j (h.own g k hg) hj)
  obtain ⟨p, -, rfl⟩ := allocFrame_some ha
  refine ⟨hnone, hcall, ?_, own_grow h.own f n,
    fun g k i hg hi hlow hpresent => hgrown g k i hg hi ⟨hlow, hpresent⟩, ?_⟩
  · rw [Function.update_of_ne (fun heq => by rw [← heq, h.top] at hnone; cases hnone)]
    exact h.top
  · intro j hlo hhi
    rw [hword pml4 j (h.own pml4 _ h.top) hhi]
    exact h.upper_eq j hlo hhi

/-- How one level of a walk in the lower half can end: at a table one level
down, or out of frames. -/
def LevelDone (env : Env) (pml4 : Nat) (upper : Nat → Nat) (n : Nat)
    (o : Outcome ε (Nat × List Nat)) (m : Memory) : Prop :=
  match o with
  | .ok (next, _) => ∃ lvl, lvl next = some n ∧ Tables env lvl pml4 upper m
  | .err _ => False
  | .panic _ => CallSound env m

/-- **One level of a walk in the lower half.** -/
theorem enterTable_tables (hl : env.limit ≤ 2 ^ 52) (message : String) (table n : Nat) {idx : Nat}
    (tf : List Nat) (hi : idx < 512) (hlow : n = 2 → idx < 256) :
    Command.Spec (fun m => ∃ lvl, lvl table = some (n + 2) ∧ Tables env lvl pml4 upper m)
      (enterTable message table idx tf : Command Memory ε _)
      (LevelDone env pml4 upper (n + 1)) := by
  rintro m ⟨lvl, ht, h⟩
  have hmod : env.limit + pageSize < modulus := by
    simp only [pageSize, modulus]
    omega
  have hlow' : table = pml4 → idx < 256 := by
    rintro rfl
    have htop := h.top
    rw [ht] at htop
    have := Option.some.inj htop
    exact hlow (by omega)
  unfold enterTable
  rw [Command.gets_bind]
  by_cases hpresent : m.readWord (table + 8 * idx) &&& pagePresent = 0
  · rw [if_pos hpresent, Command.bind_apply, allocExpect]
    cases ha : m.allocFrame with
    | mk o m' =>
        cases o with
        | none => exact h.call.allocFrame_none hmod ha
        | some f =>
            obtain ⟨hnone, hgrown⟩ := h.grow hmod (n + 1) ha
            have hself : Function.update lvl f (some (n + 1)) f = some (n + 1) :=
              Function.update_self _ _ _
            have hbelow := hgrown.call.below (hgrown.own f (n + 1) hself)
            have hentry := new_entry (hgrown.call.aligned (hgrown.own f (n + 1) hself))
              (hbelow.trans hl)
            have hlt := new_entry_lt (hbelow.trans hl)
            have hne : table ≠ f := fun heq => by rw [heq, hnone] at ht; cases ht
            have htable : Function.update lvl f (some (n + 1)) table = some (n + 1 + 1) := by
              rw [Function.update_of_ne hne]
              exact ht
            have hwritten := hgrown.write htable hi hlow' hlt
              (fun _ _ => by rw [hentry]; exact hself)
            refine ⟨Function.update lvl f (some (n + 1)), ?_, hwritten⟩
            simp only [readWord_writeWord_same _ _ hlt, hentry]
            exact hself
  · rw [if_neg hpresent]
    have hlt := or_user_lt (readWord_lt m (table + 8 * idx))
    have hdown := h.down table n idx ht hi hlow' hpresent
    have hwritten := h.write ht hi hlow' hlt
      (fun _ _ => by rw [or_user_addr]; exact hdown)
    refine ⟨lvl, ?_, hwritten⟩
    simp only [readWord_writeWord_same _ _ hlt, or_user_addr]
    exact hdown

/-- How a walk in the lower half can end. -/
def TablesDone (env : Env) (pml4 : Nat) (upper : Nat → Nat) {α : Type} (o : Outcome ε α)
    (m : Memory) : Prop :=
  match o with
  | .ok _ => ∃ lvl, Tables env lvl pml4 upper m
  | .err _ => False
  | .panic _ => CallSound env m

/-- **Mapping a page of the lower half** stays in the tables of the call. -/
theorem mapUserPageSplit_tables (hl : env.limit ≤ 2 ^ 52) {vaddr : Nat}
    (hv : vaddr.testBit 47 = false) (paddr : Nat) (w x : Bool) (tf : List Nat) :
    Command.Spec (fun m => ∃ lvl, Tables env lvl pml4 upper m)
      (mapUserPageSplit pml4 vaddr paddr w x tf : Command Memory ε _)
      (TablesDone env pml4 upper) := by
  have hidx : pml4Idx vaddr < 256 := by
    by_contra hup
    rw [(pml4Idx_upper vaddr).mp (by omega)] at hv
    cases hv
  have hfail : ∀ n e m, LevelDone env pml4 upper n (.err e : Outcome ε _) m →
      TablesDone env pml4 upper (.err e : Outcome ε (List Nat)) m := fun _ _ _ h => h
  unfold mapUserPageSplit
  have htop : Command.Spec (fun m => ∃ lvl, Tables env lvl pml4 upper m)
      (enterTable "out of memory (PDPT, isolated table)" pml4 (pml4Idx vaddr) tf)
      (LevelDone (ε := ε) env pml4 upper 3) :=
    (enterTable_tables hl _ pml4 2 tf (idx_lt _) (fun _ => hidx)).conseq
      (fun _ ⟨lvl, h⟩ => ⟨lvl, h.top, h⟩) (fun _ _ h => h)
  refine htop.seq ?_ (hfail 3) (fun _ _ h => h)
  rintro ⟨pdpt, tf⟩
  refine (enterTable_tables hl _ pdpt 1 tf (idx_lt _) (fun h => absurd h (by decide))).seq ?_
    (hfail 2) (fun _ _ h => h)
  rintro ⟨pd, tf⟩
  refine (enterTable_tables hl _ pd 0 tf (idx_lt _) (fun h => absurd h (by decide))).seq ?_
    (hfail 1) (fun _ _ h => h)
  rintro ⟨pt, tf⟩ m ⟨lvl, hpt, h⟩
  refine ⟨lvl, h.write hpt (idx_lt _) ?_ (leaf_lt _ _ _) (fun hzero => absurd rfl hzero)⟩
  rintro rfl
  rw [h.top] at hpt
  cases hpt

/-- Mapping pages of the lower half. -/
theorem mapPages_tables (hl : env.limit ≤ 2 ^ 52) :
    ∀ (pages : List Page) (tf : List Nat), (∀ p ∈ pages, p.vaddr.testBit 47 = false) →
      Command.Spec (fun m => ∃ lvl, Tables env lvl pml4 upper m)
        (mapPages pml4 pages tf : Command Memory ε _) (TablesDone env pml4 upper) := by
  intro pages
  induction pages with
  | nil => exact fun tf _ m h => h
  | cons page pages ih =>
      intro tf hpages
      exact (mapUserPageSplit_tables hl (hpages page List.mem_cons_self) _ _ _ tf).seq
        (fun tf' => ih tf' (fun p hp => hpages p (List.mem_cons_of_mem _ hp)))
        (fun _ _ h => h) (fun _ _ h => h)

/-- After `n` rounds of the copy loop. -/
structure Copied (env : Env) (kernel pml4 n : Nat) (m m' : Memory) : Prop where
  call : CallSound env m'
  taken : m'.trace.taken = m.trace.taken
  done : ∀ i, i < n → m'.readWord (pml4 + 8 * (256 + i)) = readLE env.old (kernel + 8 * (256 + i)) 8
  lower : ∀ i, i < 256 → m'.readWord (pml4 + 8 * i) = m.readWord (pml4 + 8 * i)

/-- **The copy loop** reads the active PML4 and writes the new one. -/
theorem copyUpper_copied (h : CallSound env m) {kernel : Nat} (hk : kernel ∈ env.held)
    (hp : pml4 ∈ m.trace.taken) : Copied env kernel pml4 256 m (copyUpper kernel pml4 m) := by
  have hloop : ∀ n, n ≤ 256 → Copied env kernel pml4 n m ((List.range n).foldl
      (fun m i => m.writeWord (pml4 + 8 * (256 + i)) (m.readWord (kernel + 8 * (256 + i)))) m) := by
    intro n
    induction n with
    | zero => exact fun _ => ⟨h, rfl, fun i hi => absurd hi (Nat.not_lt_zero i), fun _ _ => rfl⟩
    | succ n ih =>
        intro hn
        rw [List.range_succ, List.foldl_append]
        simp only [List.foldl_cons, List.foldl_nil]
        have hc := ih (by omega)
        generalize (List.range n).foldl _ m = m1 at hc ⊢
        have hword : m1.readWord (kernel + 8 * (256 + n)) =
            readLE env.old (kernel + 8 * (256 + n)) 8 :=
          hc.call.readWord_held hk (by omega) (by simp only [pageSize]; omega)
        refine ⟨hc.call.writeWord _ (hc.taken ▸ hp) (by omega) (by simp only [pageSize]; omega),
          hc.taken, ?_, ?_⟩
        · intro i hi
          by_cases hlast : i = n
          · subst hlast
            rw [readWord_writeWord_same _ _ (readWord_lt _ _), hword]
          · rw [readWord_writeWord_other _ _ (by omega)]
            exact hc.done i (by omega)
        · intro i hi
          rw [readWord_writeWord_other _ _ (by omega)]
          exact hc.lower i hi
  exact hloop 256 (Nat.le_refl _)

/-- The words of the upper half of the active PML4, as the call found them. -/
def kernelHalf (env : Env) (kernel i : Nat) : Nat := readLE env.old (kernel + 8 * i) 8

/-- The new PML4, before any page is mapped. -/
theorem newPml4_tables (hl : env.limit + pageSize < modulus) (h : CallSound env m) {kernel : Nat}
    (hk : kernel ∈ env.held) (ha : m.allocFrame = (some pml4, m')) :
    Tables env (Function.update (fun _ => none) pml4 (some 4)) pml4 (kernelHalf env kernel)
      (copyUpper kernel pml4 (m'.zeroFrame pml4)) := by
  have hcall := h.zeroNew hl ha
  obtain ⟨p, -, rfl⟩ := allocFrame_some ha
  have hmine : pml4 ∈ (pml4 :: m.trace.taken) := List.mem_cons_self
  have hc := copyUpper_copied hcall hk hmine
  have honly : ∀ f n, Function.update (fun _ : Nat => (none : Option Nat)) pml4 (some 4) f = some n →
      f = pml4 := by
    intro f n hf
    by_contra hne
    rw [Function.update_of_ne hne] at hf
    cases hf
  refine ⟨hc.call, Function.update_self _ _ _, ?_, ?_, ?_⟩
  · intro f n hf
    rw [honly f n hf, hc.taken]
    exact hmine
  · intro f n i hf _ hlow hpresent
    obtain rfl := honly f _ hf
    rw [hc.lower i (hlow rfl), readWord_zeroFrame_inside _ (by omega)
      (by have := hlow rfl; simp only [pageSize]; omega)] at hpresent
    simp at hpresent
  · intro i hlo hhi
    have hdone := hc.done (i - 256) (by omega)
    rwa [Nat.add_sub_cancel' hlo] at hdone

variable {user : Prop}

/-- A fresh frame is not the PML4. -/
theorem Exposed.grow (hl : env.limit + pageSize < modulus) (h : Exposed env pml4 user m) {f : Nat}
    (ha : m.allocFrame = (some f, m')) : Exposed env pml4 user (m'.zeroFrame f) := by
  obtain ⟨p, hp, rfl⟩ := allocFrame_some ha
  have hsound := h.sound.allocFrame hl hp
  refine ⟨hsound, List.mem_cons_of_mem _ h.taken, fun hu => ?_⟩
  obtain ⟨i, hlo, hhi, hbit⟩ := h.seen hu
  have hne : f ≠ pml4 := by
    rintro rfl
    have hnd := (List.nodup_append'.mp hsound.separated.nodup).1
    exact (List.nodup_cons.mp hnd).1 (List.mem_append_left _ h.taken)
  have hmem : ∀ g, g = f ∨ g ∈ m.trace.taken → pageSize ∣ g := by
    intro g hg
    refine hsound.separated.aligned g (List.mem_append_left _ ?_)
    rcases hg with rfl | hg
    · exact List.mem_cons_self
    · exact List.mem_cons_of_mem _ (List.mem_append_left _ hg)
  obtain ⟨a, rfl⟩ := hmem f (Or.inl rfl)
  obtain ⟨b, rfl⟩ := hmem pml4 (Or.inr h.taken)
  refine ⟨i, hlo, hhi, ?_⟩
  rw [readWord_zeroFrame_other _ (by simp only [pageSize] at hne ⊢; omega)]
  exact hbit

/-- A word with the USER bit, written to a slot of any table. -/
theorem Exposed.write (h : Exposed env pml4 user m) {table i v : Nat} (ht : pageSize ∣ table)
    (hv : v < modulus) (hu : v &&& pageUser ≠ 0) :
    Exposed env pml4 (user ∨ table = pml4 ∧ 256 ≤ i ∧ i < 512) (m.writeWord (table + 8 * i) v) := by
  refine ⟨h.sound, h.taken, ?_⟩
  rintro (hseen | ⟨rfl, hlo, hhi⟩)
  · obtain ⟨j, hlo, hhi, hbit⟩ := h.seen hseen
    refine ⟨j, hlo, hhi, ?_⟩
    by_cases hsame : table + 8 * i = pml4 + 8 * j
    · rw [← hsame, readWord_writeWord_same _ _ hv]
      exact hu
    · obtain ⟨a, rfl⟩ := ht
      obtain ⟨b, rfl⟩ : pageSize ∣ pml4 :=
        h.sound.separated.aligned _ (List.mem_append_left _ (List.mem_append_left _ h.taken))
      rw [readWord_writeWord_other _ _ (by simp only [pageSize] at hsame ⊢; omega)]
      exact hbit
  · exact ⟨i, hlo, hhi, by rwa [readWord_writeWord_same _ _ hv]⟩

/-- A stronger condition exposes a table as well. -/
theorem Exposed.mono {user' : Prop} (h : Exposed env pml4 user m) (hsub : user' → user) :
    Exposed env pml4 user' m :=
  ⟨h.sound, h.taken, fun hu => h.seen (hsub hu)⟩

/-- One level of any walk: it goes on at a page. -/
def EnterDone (env : Env) (pml4 : Nat) (user : Prop) (o : Outcome ε (Nat × List Nat))
    (m : Memory) : Prop :=
  match o with
  | .ok (next, _) => pageSize ∣ next ∧ Exposed env pml4 user m
  | .err _ => False
  | .panic _ => True

/-- **One level of any walk.**  An entry of the upper half gets the USER bit. -/
theorem enterTable_exposed (hl : env.limit ≤ 2 ^ 52) (message : String) {table idx : Nat}
    (tf : List Nat) (ht : pageSize ∣ table) :
    Command.Spec (Exposed env pml4 user) (enterTable message table idx tf : Command Memory ε _)
      (EnterDone env pml4 (user ∨ table = pml4 ∧ 256 ≤ idx ∧ idx < 512)) := by
  intro m h
  have hmod : env.limit + pageSize < modulus := by
    simp only [pageSize, modulus]
    omega
  unfold enterTable
  rw [Command.gets_bind]
  by_cases hpresent : m.readWord (table + 8 * idx) &&& pagePresent = 0
  · rw [if_pos hpresent, Command.bind_apply, allocExpect]
    cases ha : m.allocFrame with
    | mk o m' =>
        cases o with
        | none => trivial
        | some f =>
            have hgrown := h.grow hmod ha
            have hbelow : f + pageSize ≤ env.limit := by
              obtain ⟨q, -, rfl⟩ := allocFrame_some ha
              exact hgrown.sound.separated.inside f (List.mem_append_left _ List.mem_cons_self)
            exact ⟨dvd_and_addrMask _,
              hgrown.write ht (new_entry_lt (hbelow.trans hl)) (or_user_user _)⟩
  · rw [if_neg hpresent]
    exact ⟨dvd_and_addrMask _, h.write ht (or_user_lt (readWord_lt _ _)) (or_user_user _)⟩

/-- If the walk returns, the PML4 is exposed. -/
def ExposedDone (env : Env) (pml4 : Nat) (user : Prop) {α : Type} (o : Outcome ε α)
    (m : Memory) : Prop :=
  match o with
  | .ok _ => Exposed env pml4 user m
  | .err _ => False
  | .panic _ => True

/-- **Mapping any page**: a USER bit in the upper half stays, and an address
with bit 47 leaves one. -/
theorem mapUserPageSplit_exposed (hl : env.limit ≤ 2 ^ 52) (hp : pageSize ∣ pml4)
    (vaddr paddr : Nat) (w x : Bool) (tf : List Nat) :
    Command.Spec (Exposed env pml4 user)
      (mapUserPageSplit pml4 vaddr paddr w x tf : Command Memory ε _)
      (ExposedDone env pml4 (user ∨ vaddr.testBit 47 = true)) := by
  unfold mapUserPageSplit
  refine (enterTable_exposed hl _ tf hp).seq ?_ (fun _ _ h => h) (fun _ _ h => h)
  rintro ⟨pdpt, tf⟩
  refine Command.Spec.pull (fun hpdpt => ?_)
  refine (enterTable_exposed hl _ tf hpdpt).seq ?_ (fun _ _ h => h) (fun _ _ h => h)
  rintro ⟨pd, tf⟩
  refine Command.Spec.pull (fun hpd => ?_)
  refine (enterTable_exposed hl _ tf hpd).seq ?_ (fun _ _ h => h) (fun _ _ h => h)
  rintro ⟨pt, tf⟩ m ⟨hpt, h⟩
  refine (h.write hpt (leaf_lt _ _ _) (leaf_user _ _ _)).mono (fun hu => ?_)
  refine Or.inl (Or.inl (Or.inl (Or.imp_right (fun hbit => ⟨rfl, ?_, idx_lt _⟩) hu)))
  exact (pml4Idx_upper vaddr).mpr hbit

/-- All pages: the upper half is exposed only by those that lie in it. -/
theorem mapPages_exposed (hl : env.limit ≤ 2 ^ 52) (hp : pageSize ∣ pml4) :
    ∀ (pages : List Page) (tf : List Nat) (user : Prop),
      Command.Spec (Exposed env pml4 user) (mapPages pml4 pages tf : Command Memory ε _)
        (ExposedDone env pml4 (user ∨ ∃ p ∈ pages, p.vaddr.testBit 47 = true)) := by
  intro pages
  induction pages with
  | nil =>
      intro tf user m h
      exact h.mono (fun hu => hu.resolve_right (fun ⟨_, hp, _⟩ => by cases hp))
  | cons page pages ih =>
      intro tf user
      refine (mapUserPageSplit_exposed hl hp _ _ _ _ tf).seq (fun tf' => ?_)
        (fun _ _ h => h) (fun _ _ h => h)
      refine (ih tf' (user ∨ page.vaddr.testBit 47 = true)).conseq (fun m h => h) (fun o m h => ?_)
      cases o with
      | err e => exact h
      | panic s => exact h
      | ok a =>
          refine Exposed.mono h ?_
          rintro (hu | ⟨q, hq, hbit⟩)
          · exact Or.inl (Or.inl hu)
          · rcases List.mem_cons.mp hq with rfl | hq
            · exact Or.inl (Or.inr hbit)
            · exact Or.inr ⟨q, hq, hbit⟩

/-- How the building of a table can end, if it stays in the lower half. -/
def CreateDone (env : Env) (upper : Nat → Nat) (o : Outcome ε (Nat × List Nat))
    (m : Memory) : Prop :=
  match o with
  | .ok (pml4, _) => ∃ lvl, Tables env lvl pml4 upper m
  | .err _ => False
  | .panic _ => CallSound env m

/-- **Pages and a stack of the lower half**: the new table is built in frames of
this call, and its upper half is that of the active PML4. -/
theorem create_tables_low (hl : env.limit ≤ 2 ^ 47) (h : CallSound env m) {cr3 stackPhys : Nat}
    (hk : cr3 &&& addrMask ∈ env.held) {pages : List Page}
    (hpages : ∀ p ∈ pages, p.vaddr.testBit 47 = false) (hlow : stackPhys.testBit 47 = false) :
    CreateDone (ε := ε) env (kernelHalf env (cr3 &&& addrMask))
      (createIsolatedUserTableFresh cr3 pages stackPhys m).1
      (createIsolatedUserTableFresh (ε := ε) cr3 pages stackPhys m).2 := by
  have hmod : env.limit + pageSize < modulus := by
    simp only [pageSize, modulus]
    omega
  unfold createIsolatedUserTableFresh
  rw [Command.bind_apply, allocExpect]
  cases ha : m.allocFrame with
  | mk o m1 =>
      cases o with
      | none => exact h.allocFrame_none hmod ha
      | some pml4 =>
          have hmap : Command.Spec
              (fun m => ∃ lvl, Tables env lvl pml4 (kernelHalf env (cr3 &&& addrMask)) m)
              (do
                let tableFrames ← mapPages pml4 pages [pml4]
                let tableFrames ←
                  mapUserPageSplit pml4 stackPhys stackPhys true false tableFrames
                return (pml4, tableFrames))
              (CreateDone (ε := ε) env (kernelHalf env (cr3 &&& addrMask))) := by
            refine (mapPages_tables (hl.trans (by decide)) pages [pml4] hpages).seq (fun tf => ?_)
              (fun _ _ h => h) (fun _ _ h => h)
            exact (mapUserPageSplit_tables (hl.trans (by decide)) hlow _ _ _ tf).seq
              (fun tf m h => h) (fun _ _ h => h) (fun _ _ h => h)
          exact hmap _ ⟨_, newPml4_tables hmod h hk ha⟩

/-- A frame below `2 ^ 47` is in the lower half. -/
theorem low_of_below {f limit : Nat} (hl : limit ≤ 2 ^ 47) (hf : f + pageSize ≤ limit) :
    f.testBit 47 = false := by
  refine Nat.testBit_lt_two_pow (lt_of_lt_of_le ?_ hl)
  simp only [pageSize] at hf
  omega

/-- **Pages of the lower half**, and a stack that the call was handed. -/
theorem create_tables (hl : env.limit ≤ 2 ^ 47) (h : CallSound env m) {cr3 stackPhys : Nat}
    (hk : cr3 &&& addrMask ∈ env.held) {pages : List Page}
    (hpages : ∀ p ∈ pages, p.vaddr.testBit 47 = false) (hstack : stackPhys ∈ m.trace.taken) :
    CreateDone (ε := ε) env (kernelHalf env (cr3 &&& addrMask))
      (createIsolatedUserTableFresh cr3 pages stackPhys m).1
      (createIsolatedUserTableFresh (ε := ε) cr3 pages stackPhys m).2 :=
  create_tables_low hl h hk hpages (low_of_below hl (h.below hstack))

/-- How the building of a table can end. -/
def CreateExposed (env : Env) (user : Prop) (o : Outcome ε (Nat × List Nat)) (m : Memory) : Prop :=
  match o with
  | .ok (pml4, _) => Exposed env pml4 user m
  | .err _ => False
  | .panic _ => True

/-- **Pages anywhere**: if the table is built, a page with bit 47 has left a
USER bit in its upper half. -/
theorem create_exposed (hl : env.limit ≤ 2 ^ 52) (h : CallSound env m) {cr3 : Nat}
    (hk : cr3 &&& addrMask ∈ env.held) (pages : List Page) (stackPhys : Nat) :
    CreateExposed (ε := ε) env (∃ p ∈ pages, p.vaddr.testBit 47 = true)
      (createIsolatedUserTableFresh cr3 pages stackPhys m).1
      (createIsolatedUserTableFresh (ε := ε) cr3 pages stackPhys m).2 := by
  have hmod : env.limit + pageSize < modulus := by
    simp only [pageSize, modulus]
    omega
  unfold createIsolatedUserTableFresh
  rw [Command.bind_apply, allocExpect]
  cases ha : m.allocFrame with
  | mk o m1 =>
      cases o with
      | none => trivial
      | some pml4 =>
          have htables := newPml4_tables hmod h hk ha
          have hown := htables.own pml4 4 htables.top
          have hdvd := htables.call.aligned hown
          have hmap : Command.Spec (Exposed env pml4 False)
              (do
                let tableFrames ← mapPages pml4 pages [pml4]
                let tableFrames ←
                  mapUserPageSplit pml4 stackPhys stackPhys true false tableFrames
                return (pml4, tableFrames))
              (CreateExposed (ε := ε) env (∃ p ∈ pages, p.vaddr.testBit 47 = true)) := by
            refine (mapPages_exposed hl hdvd pages [pml4] _).seq (fun tf => ?_)
              (fun _ _ h => h) (fun _ _ h => h)
            refine (mapUserPageSplit_exposed hl hdvd _ _ _ _ tf).seq (fun tf m h => ?_)
              (fun _ _ h => h) (fun _ _ h => h)
            exact Exposed.mono h (fun hu => Or.inl (Or.inr hu))
          exact hmap (copyUpper (cr3 &&& addrMask) pml4 (m1.zeroFrame pml4))
            ⟨htables.call.sound, hown, False.elim⟩

end

end UserPageTable
