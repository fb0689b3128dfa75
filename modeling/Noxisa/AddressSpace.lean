import Noxisa.KernelPaging
import Noxisa.Mmu

/-!
# The address space that the table builder makes

The lower half of a new page table, seen from the processor.  A `Layout` is
what an address space is for: it says what each page is translated to.  Mapping
a page changes a layout at one tag, so a list of pages has the layout in which
the last page with a tag wins (`layoutOf`).

`Directory` says how the tables in memory represent a layout.  `dir n key` is
the table of level `n` for the addresses whose bits above it are `key`; no two
of them are the same frame, and their entries are open to everything.  The walk
of such a directory is the layout (`Directory.walk_eq`), and
`create_layout` is the refinement: the table that
`create_isolated_user_table_fresh` returns has the layout of its pages and the
stack.
-/

namespace UserPageTable

open ByteMemory ElfLoader FrameAllocator MachineWord PhysicalMemory

/-- What each page of the lower half, named by its tag, is translated to. -/
abbrev Layout := Nat → Option Translation

/-- The rights of ring 3 to a page of a program. -/
def translation (p : Page) : Translation :=
  { frame := p.frame, size := pageSize, writable := p.writable, user := true
    executable := p.executable }

/-- The layout of a list of pages that are mapped in turn. -/
def layoutOf (pages : List Page) : Layout := fun t =>
  (pages.reverse.find? (fun p => tag p.vaddr == t)).map translation

/-- Mapping one more page. -/
theorem layoutOf_append_one (pages : List Page) (p : Page) :
    layoutOf (pages ++ [p]) =
      Function.update (layoutOf pages) (tag p.vaddr) (some (translation p)) := by
  funext t
  unfold layoutOf
  rw [List.reverse_append, List.reverse_singleton, List.singleton_append, List.find?_cons]
  by_cases ht : tag p.vaddr = t
  · subst ht
    simp
  · have hbeq : (tag p.vaddr == t) = false := beq_eq_false_iff_ne.mpr ht
    rw [hbeq, Function.update_of_ne (Ne.symm ht)]

/-- The last page with the tag wins. -/
theorem layoutOf_eq_some {pages : List Page} {t : Nat} {tr : Translation} :
    layoutOf pages t = some tr ↔
      ∃ before p after, pages = before ++ p :: after ∧ tag p.vaddr = t ∧
        translation p = tr ∧ ∀ q ∈ after, tag q.vaddr ≠ t := by
  unfold layoutOf
  rw [Option.map_eq_some_iff]
  constructor
  · rintro ⟨p, hfind, rfl⟩
    obtain ⟨hp, as, bs, hsplit, has⟩ := List.find?_eq_some_iff_append.mp hfind
    refine ⟨bs.reverse, p, as.reverse, ?_, beq_iff_eq.mp hp, rfl, ?_⟩
    · have hrev := congrArg List.reverse hsplit
      simpa using hrev
    · intro q hq
      have hmiss := has q (List.mem_reverse.mp hq)
      simpa using hmiss
  · rintro ⟨before, p, after, rfl, ht, rfl, hafter⟩
    refine ⟨p, List.find?_eq_some_iff_append.mpr
      ⟨beq_iff_eq.mpr ht, after.reverse, before.reverse, by simp, ?_⟩, rfl⟩
    intro q hq
    have hne := hafter q (List.mem_reverse.mp hq)
    simpa using hne

/-- A page as a leaf entry holds it. -/
def masked (p : Page) : Page := { p with frame := p.frame &&& addrMask }

/-- A masked frame is that of a page. -/
private theorem masked_dvd (p : Page) : pageSize ∣ (masked p).frame := dvd_and_addrMask p.frame

/-- It is below the reserved bits. -/
private theorem masked_below (p : Page) : (masked p).frame + pageSize ≤ 2 ^ 52 := by
  rw [masked, and_addrMask]
  simp only [pageSize]
  omega

/-- Masking twice is masking once. -/
private theorem masked_addr (p : Page) : (masked p).frame &&& addrMask = p.frame &&& addrMask := by
  rw [masked, Nat.and_assoc, Nat.and_self]

/-- A frame that is one is not changed. -/
theorem masked_eq {p : Page} (hp : pageSize ∣ p.frame) (hlt : p.frame + pageSize ≤ 2 ^ 52) :
    masked p = p := by
  obtain ⟨vaddr, frame, writable, executable⟩ := p
  obtain ⟨k, rfl⟩ := hp
  have haddr : pageSize * k &&& addrMask = pageSize * k := by
    rw [and_addrMask]
    simp only [pageSize] at hlt ⊢
    omega
  rw [masked, haddr]

/-- The layout of a list of pages, with one page more. -/
theorem layoutOf_masked_append_one (pages : List Page) (p : Page) :
    layoutOf ((pages ++ [p]).map masked) = Function.update (layoutOf (pages.map masked))
      (tag p.vaddr) (some (translation (masked p))) := by
  rw [List.map_append]
  exact layoutOf_append_one _ (masked p)

/-- The entry of a table that points to `f`, with all rights. -/
def openEntry (f : Nat) : Nat := f ||| pagePresent ||| pageWritable ||| pageUser

/-- An entry for a new table is a word. -/
theorem openEntry_lt {f : Nat} (hlt : f + pageSize ≤ 2 ^ 52) : openEntry f < modulus :=
  new_entry_lt hlt

/-- It is the table's address with three bits. -/
private theorem openEntry_eq {f : Nat} (hf : pageSize ∣ f) : openEntry f = f + 7 := by
  unfold openEntry
  rw [Nat.or_assoc, Nat.or_assoc]
  exact or_eq_add hf (by decide)

/-- The low bits of an open entry are `7`. -/
theorem openEntry_and {f : Nat} (hf : pageSize ∣ f) (b : Nat) (hb : b < 4096) :
    openEntry f &&& b = 7 &&& b := by
  unfold openEntry
  rw [Nat.or_assoc, Nat.or_assoc]
  exact or_and_low hf 7 hb

/-- Code may be executed through it. -/
private theorem openEntry_noExecute {f : Nat} (hf : pageSize ∣ f) (hlt : f + pageSize ≤ 2 ^ 52) :
    openEntry f &&& noExecute = 0 := by
  have hsmall : openEntry f < 2 ^ 63 := by
    rw [openEntry_eq hf]
    simp only [pageSize] at hlt
    omega
  unfold noExecute
  rw [Nat.and_two_pow, Nat.testBit_lt_two_pow hsmall]
  rfl

/-- Setting the USER bit of an open entry does nothing. -/
private theorem openEntry_user (f : Nat) : openEntry f ||| pageUser = openEntry f := by
  unfold openEntry
  rw [Nat.or_assoc, Nat.or_self]

/-- An entry on the way: nothing, or all rights to the next table. -/
def Points (next : Option Nat) (e : Nat) : Prop :=
  match next with
  | none => e &&& pagePresent = 0
  | some f => e = openEntry f

/-- A leaf entry. -/
def leafOf (e : Nat) : Option Translation :=
  if e &&& pagePresent = 0 then none else some (leafTranslation 0 e)

/-- The bits of a leaf entry that are not of the address. -/
theorem leaf_and (a : Nat) (w x : Bool) {b : Nat} (hb : addrMask &&& b = 0) :
    (a &&& addrMask ||| leafFlags w x) &&& b = leafFlags w x &&& b := by
  rw [Nat.and_or_distrib_right, Nat.and_assoc, hb, Nat.and_zero, Nat.zero_or]

/-- The address in a leaf. -/
private theorem leaf_addr {a : Nat} (w x : Bool) (ha : pageSize ∣ a) (hlt : a + pageSize ≤ 2 ^ 52) :
    (a &&& addrMask ||| leafFlags w x) &&& addrMask = a := by
  have hflags : leafFlags w x &&& addrMask = 0 := by
    cases w <;> cases x <;> decide
  rw [Nat.and_or_distrib_right, hflags, Nat.or_zero, Nat.and_assoc, Nat.and_self, and_addrMask]
  obtain ⟨k, rfl⟩ := ha
  simp only [pageSize] at hlt ⊢
  omega

/-- The entry that maps a page. -/
theorem leafOf_page {p : Page} (hp : pageSize ∣ p.frame) (hlt : p.frame + pageSize ≤ 2 ^ 52) :
    leafOf (p.frame &&& addrMask ||| leafFlags p.writable p.executable) =
      some (translation p) := by
  have hpresent : leafFlags p.writable p.executable &&& pagePresent ≠ 0 := by
    cases p.writable <;> cases p.executable <;> decide
  have hwrite : (leafFlags p.writable p.executable &&& pageWritable != 0) = p.writable := by
    cases p.writable <;> cases p.executable <;> decide
  have huser : (leafFlags p.writable p.executable &&& pageUser != 0) = true := by
    cases p.writable <;> cases p.executable <;> decide
  have hexec : (leafFlags p.writable p.executable &&& noExecute == 0) = p.executable := by
    cases p.writable <;> cases p.executable <;> decide
  have hsize : 2 ^ (12 + 9 * 0) = pageSize := rfl
  unfold leafOf leafTranslation translation
  dsimp only
  rw [leaf_addr _ _ hp hlt, hsize]
  rw [leaf_and _ _ _ (show addrMask &&& pagePresent = 0 by decide), if_neg hpresent,
    leaf_and _ _ _ (show addrMask &&& pageWritable = 0 by decide), hwrite,
    leaf_and _ _ _ (show addrMask &&& pageUser = 0 by decide), huser,
    leaf_and _ _ _ (show addrMask &&& noExecute = 0 by decide), hexec, Nat.div_mul_cancel hp]

/-- **How tables represent a layout.** -/
structure Directory (dir : Nat → Nat → Option Nat) (pml4 : Nat) (s : Layout) (m : Memory) :
    Prop where
  top : dir 3 0 = some pml4
  page : ∀ n key table, dir n key = some table → pageSize ∣ table ∧ table + pageSize ≤ 2 ^ 52
  /-- entries point to the tables below -/
  entry : ∀ n key table i, dir (n + 1) key = some table → i < 512 → (n = 2 → i < 256) →
    Points (dir n (key * 512 + i)) (m.readWord (table + 8 * i))
  /-- a table is below another -/
  parent : ∀ n key i, n < 3 → i < 512 → (dir n (key * 512 + i)).isSome →
    (dir (n + 1) key).isSome
  leaf : ∀ key table i, dir 0 key = some table → i < 512 →
    leafOf (m.readWord (table + 8 * i)) = s (key * 512 + i)
  empty : ∀ key i, dir 0 key = none → i < 512 → s (key * 512 + i) = none

/-- `dir` with one more table. -/
def addTable (dir : Nat → Nat → Option Nat) (n key f : Nat) : Nat → Nat → Option Nat :=
  fun n' key' => if n' = n ∧ key' = key then some f else dir n' key'

section

variable {dir : Nat → Nat → Option Nat} {pml4 : Nat} {s : Layout} {m m' : Memory}

/-- The table that has been added. -/
theorem addTable_same (dir : Nat → Nat → Option Nat) (n key f : Nat) :
    addTable dir n key f n key = some f := if_pos ⟨rfl, rfl⟩

/-- The others. -/
theorem addTable_other (dir : Nat → Nat → Option Nat) {n key n' key' : Nat} (f : Nat)
    (h : ¬(n' = n ∧ key' = key)) : addTable dir n key f n' key' = dir n' key' := if_neg h

/-- A table of `addTable` is the new one or an old one. -/
theorem addTable_cases {n key n' key' f table : Nat}
    (h : addTable dir n key f n' key' = some table) :
    (n' = n ∧ key' = key ∧ table = f) ∨ (¬(n' = n ∧ key' = key) ∧ dir n' key' = some table) := by
  by_cases hk : n' = n ∧ key' = key
  · obtain ⟨rfl, rfl⟩ := hk
    rw [addTable_same] at h
    exact Or.inl ⟨rfl, rfl, (Option.some.inj h).symm⟩
  · rw [addTable_other dir f hk] at h
    exact Or.inr ⟨hk, h⟩

/-- A directory depends on the words of its tables only. -/
theorem Directory.congr (h : Directory dir pml4 s m)
    (hsame : ∀ n key table i, dir n key = some table → i < 512 →
      m'.readWord (table + 8 * i) = m.readWord (table + 8 * i)) :
    Directory dir pml4 s m' := by
  refine ⟨h.top, h.page, ?_, h.parent, ?_, h.empty⟩
  · intro n key table i ht hi hlow
    rw [hsame _ _ _ _ ht hi]
    exact h.entry n key table i ht hi hlow
  · intro key table i ht hi
    rw [hsame _ _ _ _ ht hi]
    exact h.leaf key table i ht hi

/-- **A new empty table** `f` below `table`, in its slot `i`. -/
theorem Directory.addTable (h : Directory dir pml4 s m) {n key table i f : Nat} (hn : n < 3)
    (ht : dir (n + 1) key = some table) (hi : i < 512) (hnone : dir n (key * 512 + i) = none)
    (hpage : pageSize ∣ f ∧ f + pageSize ≤ 2 ^ 52)
    (hzero : ∀ j < 512, m'.readWord (f + 8 * j) = 0)
    (hslot : m'.readWord (table + 8 * i) = openEntry f)
    (hsame : ∀ n' key' table' j, dir n' key' = some table' → j < 512 →
      ¬(n' = n + 1 ∧ key' = key ∧ j = i) →
      m'.readWord (table' + 8 * j) = m.readWord (table' + 8 * j)) :
    Directory (addTable dir n (key * 512 + i) f) pml4 s m' := by
  refine ⟨?_, ?_, ?_, ?_, ?_, ?_⟩
  · rw [addTable_other dir f (by omega)]
    exact h.top
  · intro n' key' table' ht'
    rcases addTable_cases ht' with ⟨-, -, rfl⟩ | ⟨-, hold⟩
    · exact hpage
    · exact h.page _ _ _ hold
  · intro n' key' table' j ht' hj hjlow
    rcases addTable_cases ht' with ⟨hn', rfl, rfl⟩ | ⟨-, hold⟩
    · -- the new table is empty, and nothing is below it
      have hbelow : dir n' ((key * 512 + i) * 512 + j) = none := by
        by_contra hsome
        have hparent := h.parent n' _ j (by omega) hj (Option.isSome_iff_ne_none.mpr hsome)
        rw [hn', hnone] at hparent
        cases hparent
      rw [addTable_other dir _ (by omega), hbelow, hzero j hj]
      exact Nat.zero_and _
    · by_cases hnew : n' = n ∧ key' * 512 + j = key * 512 + i
      · -- the slot that points to it
        obtain ⟨rfl, hkey⟩ := hnew
        obtain ⟨rfl, rfl⟩ : key' = key ∧ j = i := by omega
        obtain rfl := Option.some.inj (ht.symm.trans hold)
        rw [addTable_same, hslot]
        rfl
      · rw [addTable_other dir f hnew, hsame _ _ _ j hold hj (by omega)]
        exact h.entry _ _ _ _ hold hj hjlow
  · intro n' key' j hn' hj hsome
    have hold : (dir (n' + 1) key').isSome := by
      by_cases hnew : n' = n ∧ key' * 512 + j = key * 512 + i
      · obtain ⟨rfl, hkey⟩ := hnew
        obtain ⟨rfl, -⟩ : key' = key ∧ j = i := by omega
        rw [ht]
        rfl
      · rw [addTable_other dir f hnew] at hsome
        exact h.parent _ _ _ hn' hj hsome
    by_cases hnew : n' + 1 = n ∧ key' = key * 512 + i
    · obtain ⟨rfl, rfl⟩ := hnew
      rw [addTable_same]
      rfl
    · rw [addTable_other dir f hnew]
      exact hold
  · intro key' table' j ht' hj
    rcases addTable_cases ht' with ⟨rfl, rfl, rfl⟩ | ⟨-, hold⟩
    · rw [hzero j hj, h.empty _ _ hnone hj]
      rfl
    · rw [hsame _ _ _ j hold hj (by omega)]
      exact h.leaf _ _ _ hold hj
  · intro key' j hkey' hj
    by_cases hnew : 0 = n ∧ key' = key * 512 + i
    · obtain ⟨rfl, rfl⟩ := hnew
      rw [addTable_same] at hkey'
      cases hkey'
    · rw [addTable_other dir f hnew] at hkey'
      exact h.empty _ _ hkey' hj

/-- Where the way ends early, there is no page. -/
theorem Directory.unreached (h : Directory dir pml4 s m) (v : Nat) :
    ∀ n, n < 4 → dir n (pageKey (n + 1) v) = none → s (tag v) = none := by
  intro n
  induction n with
  | zero =>
      intro _ hnone
      rw [tag, pageKey_succ (by decide)]
      exact h.empty _ _ hnone (tableIndex_lt _ _)
  | succ n ih =>
      intro hn hnone
      refine ih (by omega) ?_
      by_contra hsome
      rw [pageKey_succ (n := n + 1) hn] at hsome
      have hparent := h.parent n _ _ (by omega) (tableIndex_lt (n + 1) v)
        (Option.isSome_iff_ne_none.mpr hsome)
      rw [hnone] at hparent
      cases hparent

/-- What the way of `v` finds at a table: the end of the lower half, or an open
entry. -/
theorem Directory.step (h : Directory dir pml4 s m) {v : Nat} (hv : v.testBit 47 = false)
    {n table : Nat} (hn : n + 1 < 4) (ht : dir (n + 1) (pageKey (n + 2) v) = some table) :
    (m.readWord (table + 8 * tableIndex (n + 1) v) &&& pagePresent = 0 ∧ s (tag v) = none) ∨
    ∃ f, dir n (pageKey (n + 1) v) = some f ∧
      m.readWord (table + 8 * tableIndex (n + 1) v) = openEntry f ∧
      pageSize ∣ f ∧ f + pageSize ≤ 2 ^ 52 := by
  have hlow : n = 2 → tableIndex (n + 1) v < 256 := by
    rintro rfl
    by_contra hup
    rw [(pml4Idx_upper v).mp (Nat.le_of_not_lt hup)] at hv
    cases hv
  have hentry := h.entry n _ table _ ht (tableIndex_lt (n + 1) v) hlow
  rw [← pageKey_succ (n := n + 1) hn] at hentry
  cases hnext : dir n (pageKey (n + 1) v) with
  | none =>
      rw [hnext] at hentry
      exact Or.inl ⟨hentry, h.unreached v n (by omega) hnext⟩
  | some f =>
      rw [hnext] at hentry
      obtain ⟨hdvd, hlt⟩ := h.page n _ f hnext
      exact Or.inr ⟨f, rfl, hentry, hdvd, hlt⟩

/-- The last table of a walk has the leaf. -/
theorem Directory.last (h : Directory dir pml4 s m) {v table : Nat}
    (ht : dir 0 (pageKey 1 v) = some table) :
    leafOf (m.readWord (table + 8 * tableIndex 0 v)) = s (tag v) := by
  have hleaf := h.leaf _ table _ ht (tableIndex_lt 0 v)
  rw [← pageKey_succ (by decide)] at hleaf
  exact hleaf

/-- An entry for a table is present. -/
theorem openEntry_present {f : Nat} (hf : pageSize ∣ f) : openEntry f &&& pagePresent ≠ 0 := by
  rw [openEntry_and hf _ (by decide)]
  decide

/-- **The walk of a directory is its layout.** -/
theorem Directory.walk_from (h : Directory dir pml4 s m) {v : Nat} (hv : v.testBit 47 = false) :
    ∀ n table, n < 4 → dir n (pageKey (n + 1) v) = some table → walk m n table v = s (tag v) := by
  intro n
  induction n with
  | zero =>
      intro table _ ht
      rw [← h.last ht]
      rfl
  | succ n ih =>
      intro table hn ht
      rcases h.step hv hn ht with ⟨hempty, hnone⟩ | ⟨f, hnext, hword, hdvd, hlt⟩
      · rw [hnone, walk]
        exact if_pos hempty
      · have hsmall : ¬openEntry f &&& pageSizeBit ≠ 0 := by
          rw [openEntry_and hdvd _ (by decide)]
          decide
        have hopen : ∀ t : Translation, t.restrict (openEntry f) = t := by
          intro t
          refine restrict_open ?_ ?_ (openEntry_noExecute hdvd hlt)
          · rw [openEntry_and hdvd _ (by decide)]
            decide
          · rw [openEntry_and hdvd _ (by decide)]
            decide
        have haddr : openEntry f &&& addrMask = f := new_entry hdvd hlt
        have hrest := ih f (by omega) hnext
        simp only [walk, hword, openEntry_present hdvd, hsmall, if_false, haddr, hrest, hopen]
        cases s (tag v) <;> rfl

/-- **A walk** of the processor in the lower half finds what the layout says. -/
theorem Directory.walk_eq (h : Directory dir pml4 s m) {v : Nat} (hv : v.testBit 47 = false) :
    walk m 3 pml4 v = s (tag v) :=
  h.walk_from hv 3 pml4 (by decide) (by rw [pageKey_top]; exact h.top)

end

/-- **A new page table with a layout**: a walk in the lower half has kept to
the tables of `dir`, which are all different. -/
structure Space (env : Env) (lvl : Nat → Option Nat) (dir : Nat → Nat → Option Nat) (pml4 : Nat)
    (upper : Nat → Nat) (s : Layout) (m : Memory) : Prop where
  tables : Tables env lvl pml4 upper m
  directory : Directory dir pml4 s m
  level : ∀ n key table, dir n key = some table → lvl table = some (n + 1)
  inj : ∀ n key key' table, dir n key = some table → dir n key' = some table → key = key'

section

variable {ε : Type} {env : Env} {lvl : Nat → Option Nat} {dir : Nat → Nat → Option Nat}
  {pml4 : Nat} {upper : Nat → Nat} {s : Layout} {m m' : Memory}

/-- A table of the directory is a frame of the call. -/
theorem Space.own (h : Space env lvl dir pml4 upper s m) {n key table : Nat}
    (ht : dir n key = some table) : table ∈ m.trace.taken :=
  h.tables.own table _ (h.level n key table ht)

/-- The level and the key of a table. -/
theorem Space.unique (h : Space env lvl dir pml4 upper s m) {n n' key key' table : Nat}
    (ht : dir n key = some table) (ht' : dir n' key' = some table) : n = n' ∧ key = key' := by
  have hlevel := (h.level _ _ _ ht).symm.trans (h.level _ _ _ ht')
  obtain rfl : n = n' := by
    have := Option.some.inj hlevel
    omega
  exact ⟨rfl, h.inj n key key' table ht ht'⟩

/-- A word of another slot. -/
theorem Space.readWord_other (h : Space env lvl dir pml4 upper s m)
    {n n' key key' table table' i j : Nat} (v : Nat) (ht : dir n key = some table) (ht' : dir n' key' = some table')
    (hi : i < 512) (hj : j < 512) (hne : ¬((n = n' ∧ key = key') ∧ i = j)) :
    (m.writeWord (table + 8 * i) v).readWord (table' + 8 * j) = m.readWord (table' + 8 * j) := by
  refine readWord_writeWord_other m v (slots_apart h.tables.call (h.own ht) (h.own ht') hi hj ?_)
  rintro ⟨rfl, hij⟩
  exact hne ⟨h.unique ht ht', hij⟩

/-- Writing an entry again changes nothing. -/
theorem Space.rewrite (h : Space env lvl dir pml4 upper s m) {n key table i f : Nat}
    (ht : dir (n + 1) key = some table) (hi : i < 512) (hlow : n = 2 → i < 256)
    (hf : dir n (key * 512 + i) = some f) :
    Space env lvl dir pml4 upper s (m.writeWord (table + 8 * i) (openEntry f)) := by
  have hword : m.readWord (table + 8 * i) = openEntry f := by
    have hentry := h.directory.entry n key table i ht hi hlow
    rw [hf] at hentry
    exact hentry
  have hlt : openEntry f < modulus := hword ▸ readWord_lt m _
  have hlow' : table = pml4 → i < 256 := by
    rintro rfl
    have htop := h.unique ht h.directory.top
    exact hlow (by omega)
  obtain ⟨hdvd, hbelow⟩ := h.directory.page _ _ _ hf
  refine ⟨h.tables.write (h.level _ _ _ ht) hi hlow' hlt ?_, h.directory.congr ?_, h.level, h.inj⟩
  · intro _ _
    rw [openEntry, new_entry hdvd hbelow]
    exact h.level _ _ _ hf
  · intro n' key' table' j ht' hj
    by_cases hsame : (n + 1 = n' ∧ key = key') ∧ i = j
    · obtain ⟨⟨rfl, rfl⟩, rfl⟩ := hsame
      obtain rfl := Option.some.inj (ht.symm.trans ht')
      rw [readWord_writeWord_same m _ hlt, hword]
    · exact h.readWord_other _ ht ht' hi hj hsame

/-- **A new table** below `table`, at the key `key * 512 + i`. -/
theorem Space.link (hl : env.limit ≤ 2 ^ 52) (h : Space env lvl dir pml4 upper s m)
    {n key table i f : Nat} (hn : n < 3) (ht : dir (n + 1) key = some table) (hi : i < 512)
    (hlow : n = 2 → i < 256) (hnone : dir n (key * 512 + i) = none)
    (ha : m.allocFrame = (some f, m')) :
    Space env (Function.update lvl f (some (n + 1))) (addTable dir n (key * 512 + i) f) pml4 upper s
      ((m'.zeroFrame f).writeWord (table + 8 * i) (openEntry f)) := by
  have hmod : env.limit + pageSize < modulus := by
    simp only [pageSize, modulus]
    omega
  obtain ⟨hfree, htables⟩ := h.tables.grow hmod (n + 1) ha
  have hself : Function.update lvl f (some (n + 1)) f = some (n + 1) := Function.update_self _ _ _
  have hfresh : ∀ n' key', dir n' key' ≠ some f := by
    intro n' key' hf
    rw [h.level _ _ _ hf] at hfree
    cases hfree
  have hfown := htables.own f _ hself
  have hfdvd := htables.call.aligned hfown
  have hflt := (htables.call.below hfown).trans hl
  have hlt := openEntry_lt hflt
  have hlvl : ∀ n' key' table', dir n' key' = some table' →
      Function.update lvl f (some (n + 1)) table' = some (n' + 1) := by
    intro n' key' table' ht'
    rw [Function.update_of_ne (fun heq => hfresh _ _ (heq ▸ ht'))]
    exact h.level _ _ _ ht'
  have hlow' : table = pml4 → i < 256 := by
    rintro rfl
    have htop := h.unique ht h.directory.top
    exact hlow (by omega)
  -- only the slot of the new table is written
  have hother : ∀ table' j, table' ∈ (m'.zeroFrame f).trace.taken → j < 512 →
      ¬(table = table' ∧ i = j) →
      ((m'.zeroFrame f).writeWord (table + 8 * i) (openEntry f)).readWord (table' + 8 * j) =
        (m'.zeroFrame f).readWord (table' + 8 * j) :=
    fun table' j ht' hj hslot => readWord_writeWord_other _ _
      (slots_apart htables.call (htables.own table _ (hlvl _ _ _ ht)) ht' hi hj hslot)
  refine ⟨?_, h.directory.addTable hn ht hi hnone ⟨hfdvd, hflt⟩ ?_ ?_ ?_, ?_, ?_⟩
  · refine htables.write (hlvl _ _ _ ht) hi hlow' hlt (fun _ _ => ?_)
    rw [openEntry, new_entry hfdvd hflt]
    exact hself
  · intro j hj
    rw [hother f j hfown hj (fun heq => hfresh _ _ (heq.1 ▸ ht))]
    exact readWord_zeroFrame_inside _ (by omega) (by simp only [pageSize]; omega)
  · exact readWord_writeWord_same _ _ hlt
  · intro n' key' table' j ht' hj hslot
    rw [hother table' j (htables.own table' _ (hlvl _ _ _ ht')) hj ?_]
    · exact readWord_zeroNew hmod h.tables.call ha (h.own ht') hj
    · rintro ⟨rfl, rfl⟩
      have hsame := h.unique ht ht'
      exact hslot ⟨hsame.1.symm, hsame.2.symm, rfl⟩
  · intro n' key' table' ht'
    rcases addTable_cases ht' with ⟨rfl, -, rfl⟩ | ⟨-, hold⟩
    · exact hself
    · exact hlvl _ _ _ hold
  · intro n' key₁ key₂ table' ht₁ ht₂
    rcases addTable_cases ht₁ with ⟨-, hkey₁, rfl⟩ | ⟨-, hold₁⟩
    · rcases addTable_cases ht₂ with ⟨-, hkey₂, -⟩ | ⟨-, hold₂⟩
      · exact hkey₁.trans hkey₂.symm
      · exact absurd hold₂ (hfresh _ _)
    · rcases addTable_cases ht₂ with ⟨-, -, rfl⟩ | ⟨-, hold₂⟩
      · exact absurd hold₁ (hfresh _ _)
      · exact h.inj _ _ _ _ hold₁ hold₂

/-- **Writing a leaf entry** maps one page. -/
theorem Space.mapLeaf (h : Space env lvl dir pml4 upper s m) {v table : Nat}
    (ht : dir 0 (pageKey 1 v) = some table) {p : Page} (hp : pageSize ∣ p.frame)
    (hlt : p.frame + pageSize ≤ 2 ^ 52) :
    Space env lvl dir pml4 upper (Function.update s (tag v) (some (translation p)))
      (m.writeWord (table + 8 * tableIndex 0 v)
        (p.frame &&& addrMask ||| leafFlags p.writable p.executable)) := by
  have hi := tableIndex_lt 0 v
  have hkey : tag v = pageKey 1 v * 512 + tableIndex 0 v := pageKey_succ (by decide) v
  refine ⟨?_, ⟨h.directory.top, h.directory.page, ?_, h.directory.parent, ?_, ?_⟩, h.level, h.inj⟩
  · refine h.tables.write (h.level _ _ _ ht) hi ?_ (leaf_lt _ _ _) (fun hzero => absurd rfl hzero)
    rintro rfl
    exact absurd (h.unique ht h.directory.top).1 (by decide)
  · intro n key' table' j ht' hj hlow
    rw [h.readWord_other _ ht ht' hi hj (by omega)]
    exact h.directory.entry _ _ _ _ ht' hj hlow
  · intro key' table' j ht' hj
    by_cases hsame : key' * 512 + j = tag v
    · obtain ⟨rfl, rfl⟩ : key' = pageKey 1 v ∧ j = tableIndex 0 v := by omega
      obtain rfl := Option.some.inj (ht.symm.trans ht')
      rw [readWord_writeWord_same _ _ (leaf_lt _ _ _), hsame, Function.update_self]
      exact leafOf_page hp hlt
    · rw [h.readWord_other _ ht ht' hi hj (by omega), Function.update_of_ne hsame]
      exact h.directory.leaf _ _ _ ht' hj
  · intro key' j hnone hj
    have hne : key' * 512 + j ≠ tag v := by
      intro heq
      obtain rfl : key' = pageKey 1 v := by omega
      rw [ht] at hnone
      cases hnone
    rw [Function.update_of_ne hne]
    exact h.directory.empty _ _ hnone hj

/-- How one level of the walk for `v` can end: at the table one level down. -/
def LevelBuilt (env : Env) (pml4 : Nat) (upper : Nat → Nat) (s : Layout) (n v : Nat)
    (o : Outcome ε (Nat × List Nat)) (m : Memory) : Prop :=
  match o with
  | .ok (next, _) => ∃ lvl dir, dir n (pageKey (n + 1) v) = some next ∧
      Space env lvl dir pml4 upper s m
  | .err _ => False
  | .panic _ => True

/-- **One level of the walk** changes no translation. -/
theorem enterTable_space (hl : env.limit ≤ 2 ^ 52) (message : String) {n v table : Nat}
    (tf : List Nat) (hn : n < 3) (hlow : n = 2 → tableIndex 3 v < 256) :
    Command.Spec (fun m => ∃ lvl dir, dir (n + 1) (pageKey (n + 2) v) = some table ∧
        Space env lvl dir pml4 upper s m)
      (enterTable message table (tableIndex (n + 1) v) tf : Command Memory ε _)
      (LevelBuilt env pml4 upper s n v) := by
  rintro m ⟨lvl, dir, ht, h⟩
  have hi := tableIndex_lt (n + 1) v
  have hlow' : n = 2 → tableIndex (n + 1) v < 256 := by
    rintro rfl
    exact hlow rfl
  have hkey : pageKey (n + 1) v = pageKey (n + 2) v * 512 + tableIndex (n + 1) v :=
    pageKey_succ (by omega) v
  have hentry := h.directory.entry n _ table _ ht hi hlow'
  unfold enterTable
  rw [Command.gets_bind]
  cases hnext : dir n (pageKey (n + 1) v) with
  | none =>
      rw [hkey] at hnext
      rw [hnext] at hentry
      have hempty : m.readWord (table + 8 * tableIndex (n + 1) v) &&& pagePresent = 0 := hentry
      rw [if_pos hempty, Command.bind_apply, allocExpect]
      cases ha : m.allocFrame with
      | mk o m' =>
          cases o with
          | none => trivial
          | some f =>
              have hlinked := h.link hl hn ht hi hlow' hnext ha
              obtain ⟨hdvd, hbelow⟩ := hlinked.directory.page n _ f (addTable_same dir n _ f)
              have haddr : openEntry f &&& addrMask = f := new_entry hdvd hbelow
              refine ⟨_, _, ?_, hlinked⟩
              have hread : ((m'.zeroFrame f).writeWord (table + 8 * tableIndex (n + 1) v)
                  (openEntry f)).readWord (table + 8 * tableIndex (n + 1) v) &&& addrMask = f := by
                rw [readWord_writeWord_same _ _ (openEntry_lt hbelow), haddr]
              rw [hkey, addTable_same]
              exact congrArg some hread.symm
  | some f =>
      obtain ⟨hdvd, hbelow⟩ := h.directory.page _ _ _ hnext
      have hword : m.readWord (table + 8 * tableIndex (n + 1) v) = openEntry f := by
        rw [← hkey, hnext] at hentry
        exact hentry
      have haddr : openEntry f &&& addrMask = f := new_entry hdvd hbelow
      rw [hword, if_neg (openEntry_present hdvd), openEntry_user]
      have hread : (m.writeWord (table + 8 * tableIndex (n + 1) v)
          (openEntry f)).readWord (table + 8 * tableIndex (n + 1) v) &&& addrMask = f := by
        rw [readWord_writeWord_same _ _ (openEntry_lt hbelow), haddr]
      refine ⟨lvl, dir, ?_, h.rewrite ht hi hlow' (hkey ▸ hnext)⟩
      rw [hnext]
      exact congrArg some hread.symm

/-- A table with the layout `s`. -/
def Built (env : Env) (pml4 : Nat) (upper : Nat → Nat) (s : Layout) {α : Type} (o : Outcome ε α)
    (m : Memory) : Prop :=
  match o with
  | .ok _ => ∃ lvl dir, Space env lvl dir pml4 upper s m
  | .err _ => False
  | .panic _ => True

/-- **Mapping a page** changes the layout at its tag. -/
theorem mapUserPageSplit_space (hl : env.limit ≤ 2 ^ 52) {p : Page}
    (hv : p.vaddr.testBit 47 = false) (tf : List Nat) :
    Command.Spec (fun m => ∃ lvl dir, Space env lvl dir pml4 upper s m)
      (mapUserPageSplit pml4 p.vaddr p.frame p.writable p.executable tf : Command Memory ε _)
      (Built env pml4 upper (Function.update s (tag p.vaddr) (some (translation (masked p))))) := by
  have hidx : tableIndex 3 p.vaddr < 256 := by
    by_contra hup
    rw [(pml4Idx_upper p.vaddr).mp (Nat.le_of_not_lt hup)] at hv
    cases hv
  unfold mapUserPageSplit
  have htop : Command.Spec (fun m => ∃ lvl dir, Space env lvl dir pml4 upper s m)
      (enterTable "out of memory (PDPT, isolated table)" pml4 (tableIndex 3 p.vaddr) tf)
      (LevelBuilt (ε := ε) env pml4 upper s 2 p.vaddr) :=
    (enterTable_space hl _ tf (by decide) (fun _ => hidx)).conseq
      (fun _ ⟨lvl, dir, h⟩ => ⟨lvl, dir, by rw [pageKey_top]; exact h.directory.top, h⟩)
      (fun _ _ h => h)
  refine htop.seq ?_ (fun _ _ h => h) (fun _ _ h => h)
  rintro ⟨pdpt, tf⟩
  refine (enterTable_space (n := 1) hl _ tf (by decide) (fun h => absurd h (by decide))).seq ?_
    (fun _ _ h => h) (fun _ _ h => h)
  rintro ⟨pd, tf⟩
  refine (enterTable_space (n := 0) hl _ tf (by decide) (fun h => absurd h (by decide))).seq ?_
    (fun _ _ h => h) (fun _ _ h => h)
  rintro ⟨pt, tf⟩ m ⟨lvl, dir, hpt, h⟩
  have hmapped := h.mapLeaf hpt (masked_dvd p) (masked_below p)
  have hframe : (masked p).frame &&& addrMask = p.frame &&& addrMask := masked_addr p
  rw [hframe] at hmapped
  exact ⟨lvl, dir, hmapped⟩

/-- **Mapping pages**, one after the other. -/
theorem mapPages_space (hl : env.limit ≤ 2 ^ 52) :
    ∀ (pages mapped : List Page) (tf : List Nat), (∀ p ∈ pages, p.vaddr.testBit 47 = false) →
      Command.Spec
        (fun m => ∃ lvl dir, Space env lvl dir pml4 upper (layoutOf (mapped.map masked)) m)
        (mapPages pml4 pages tf : Command Memory ε _)
        (Built env pml4 upper (layoutOf ((mapped ++ pages).map masked))) := by
  intro pages
  induction pages with
  | nil =>
      intro mapped tf _ m h
      rw [List.append_nil]
      exact h
  | cons p pages ih =>
      intro mapped tf hpages
      have hsplit : mapped ++ p :: pages = (mapped ++ [p]) ++ pages := by simp
      rw [hsplit]
      refine (mapUserPageSplit_space hl (hpages p List.mem_cons_self) tf).seq (fun tf' => ?_)
        (fun _ _ h => h) (fun _ _ h => h)
      rw [← layoutOf_masked_append_one]
      exact ih (mapped ++ [p]) tf' (fun q hq => hpages q (List.mem_cons_of_mem p hq))

/-- The new PML4 has the empty layout. -/
theorem newPml4_space (hl : env.limit ≤ 2 ^ 52) (h : CallSound env m) {kernel : Nat}
    (hk : kernel ∈ env.held) (ha : m.allocFrame = (some pml4, m')) :
    ∃ lvl dir, Space env lvl dir pml4 (kernelHalf env kernel) (layoutOf [])
      (copyUpper kernel pml4 (m'.zeroFrame pml4)) := by
  have hmod : env.limit + pageSize < modulus := by
    simp only [pageSize, modulus]
    omega
  have htables := newPml4_tables hmod h hk ha
  have hown := htables.own _ _ htables.top
  have hcopied : ∀ i < 256,
      (copyUpper kernel pml4 (m'.zeroFrame pml4)).readWord (pml4 + 8 * i) = 0 := by
    intro i hi
    have hcall := h.zeroNew hmod ha
    obtain ⟨p, -, rfl⟩ := allocFrame_some ha
    rw [(copyUpper_copied hcall hk List.mem_cons_self).lower i hi]
    exact readWord_zeroFrame_inside _ (by omega) (by simp only [pageSize]; omega)
  have honly : ∀ n key table, addTable (fun _ _ => none) 3 0 pml4 n key = some table →
      n = 3 ∧ key = 0 ∧ table = pml4 := by
    intro n key table ht
    rcases addTable_cases ht with hnew | ⟨-, hold⟩
    · exact hnew
    · cases hold
  refine ⟨_, addTable (fun _ _ => none) 3 0 pml4, htables,
    ⟨addTable_same _ _ _ _, ?_, ?_, ?_, ?_, fun _ _ _ _ => rfl⟩, ?_, ?_⟩
  · intro n key table ht
    obtain ⟨-, -, rfl⟩ := honly _ _ _ ht
    exact ⟨htables.call.aligned hown, (htables.call.below hown).trans hl⟩
  · intro n key table i ht hi hlow
    obtain ⟨hn, -, rfl⟩ := honly _ _ _ ht
    rw [addTable_other _ _ (by omega), hcopied i (hlow (by omega))]
    exact Nat.zero_and _
  · intro n key i hn hi hsome
    rw [addTable_other _ _ (by omega)] at hsome
    cases hsome
  · intro key table i ht hi
    exact absurd (honly _ _ _ ht).1 (by decide)
  · intro n key table ht
    obtain ⟨rfl, -, rfl⟩ := honly _ _ _ ht
    exact htables.top
  · intro n key key' table ht ht'
    exact (honly _ _ _ ht).2.1.trans (honly _ _ _ ht').2.1.symm

/-- The page of the stack, mapped at its own address. -/
def stackPage (stackPhys : Nat) : Page := ⟨stackPhys, stackPhys, true, false⟩

/-- How the building of a table can end: with the layout `s`. -/
def CreateBuilt (env : Env) (upper : Nat → Nat) (s : Layout) (o : Outcome ε (Nat × List Nat))
    (m : Memory) : Prop :=
  match o with
  | .ok (pml4, _) => ∃ lvl dir, Space env lvl dir pml4 upper s m
  | .err _ => False
  | .panic _ => True

/-- **What the table builder makes**: the layout of the pages and the stack. -/
theorem create_space (hl : env.limit ≤ 2 ^ 52) (h : CallSound env m) {cr3 stackPhys : Nat}
    (hk : cr3 &&& addrMask ∈ env.held) {pages : List Page}
    (hpages : ∀ p ∈ pages, p.vaddr.testBit 47 = false) (hlow : stackPhys.testBit 47 = false) :
    CreateBuilt (ε := ε) env (kernelHalf env (cr3 &&& addrMask))
      (layoutOf ((pages ++ [stackPage stackPhys]).map masked))
      (createIsolatedUserTableFresh cr3 pages stackPhys m).1
      (createIsolatedUserTableFresh (ε := ε) cr3 pages stackPhys m).2 := by
  unfold createIsolatedUserTableFresh
  rw [Command.bind_apply, allocExpect]
  cases ha : m.allocFrame with
  | mk o m1 =>
      cases o with
      | none => trivial
      | some pml4 =>
          have hmap : Command.Spec
              (fun m => ∃ lvl dir, Space env lvl dir pml4 (kernelHalf env (cr3 &&& addrMask))
                (layoutOf []) m)
              (do
                let tableFrames ← mapPages pml4 pages [pml4]
                let tableFrames ←
                  mapUserPageSplit pml4 stackPhys stackPhys true false tableFrames
                return (pml4, tableFrames))
              (CreateBuilt (ε := ε) env (kernelHalf env (cr3 &&& addrMask))
                (layoutOf ((pages ++ [stackPage stackPhys]).map masked))) := by
            refine (mapPages_space hl pages [] [pml4] hpages).seq (fun tf => ?_)
              (fun _ _ h => h) (fun _ _ h => h)
            refine (mapUserPageSplit_space (p := stackPage stackPhys) hl hlow tf).seq
              (fun tf' => ?_) (fun _ _ h => h) (fun _ _ h => h)
            rw [← layoutOf_masked_append_one, List.nil_append]
            exact fun m h => h
          exact hmap _ (newPml4_space hl h hk ha)

/-- Pages in frames of the call, and a stack in one. -/
theorem create_layout (hl : env.limit ≤ 2 ^ 47) (h : CallSound env m) {cr3 stackPhys : Nat}
    (hk : cr3 &&& addrMask ∈ env.held) {pages : List Page}
    (hpages : ∀ p ∈ pages, p.vaddr.testBit 47 = false)
    (htaken : ∀ p ∈ pages, p.frame ∈ m.trace.taken) (hstack : stackPhys ∈ m.trace.taken) :
    CreateBuilt (ε := ε) env (kernelHalf env (cr3 &&& addrMask))
      (layoutOf (pages ++ [stackPage stackPhys]))
      (createIsolatedUserTableFresh cr3 pages stackPhys m).1
      (createIsolatedUserTableFresh (ε := ε) cr3 pages stackPhys m).2 := by
  have hlimit : env.limit ≤ 2 ^ 52 := hl.trans (by decide)
  have hsame : ∀ p ∈ pages ++ [stackPage stackPhys], masked p = p := by
    intro p hp
    have hown : p.frame ∈ m.trace.taken := by
      rcases List.mem_append.mp hp with hp | hp
      · exact htaken p hp
      · obtain rfl := List.mem_singleton.mp hp
        exact hstack
    exact masked_eq (h.aligned hown) ((h.below hown).trans hlimit)
  have hspace := create_space (ε := ε) hlimit h hk hpages (low_of_below hl (h.below hstack))
  rw [List.map_congr_left hsame, List.map_id'] at hspace
  exact hspace

end

end UserPageTable
