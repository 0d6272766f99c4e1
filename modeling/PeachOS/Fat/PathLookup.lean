import PeachOS.Fat.Directory

/-!
# Resolving a path

`fat16_get_directory_entry` looks the components of a path up one after the
other, with one item at a time, which it frees once the next one is found.  The
items are kept with their pointers here, so that it can be said which of them
are freed and through which pointers the source reads.
-/

namespace PeachOS

open Lib

/-- The items made so far, in order; a pointer is a place in the list, and a
freed item leaves its place empty. -/
abbrev ItemStore := List (Option FatItem)

/-- The item a pointer leads to, if it has not been freed. -/
def ItemStore.live (store : ItemStore) (p : Nat) : Option FatItem := store[p]?.join

/-- A null pointer to an entry is handed to `kfree`, which stores before the
block table. -/
def fat16FatItemFree (store : ItemStore) (p : Nat) : Except Halt ItemStore :=
  match store.live p with
  | none => .error .fault
  | some (.file none) => .error .fault
  | some _ => .ok (store.set p none)

section Path

variable (loadFatDirectory : FatDirectoryItem → Option FatDirectory)

/-- The loop of `fat16_find_item_in_directory`, `n` rounds from index `i` on: a
later item of the name takes the place of an earlier one, which is not freed. -/
def findItemLoop (mem : Nat → ItemMemory) (directory : FatDirectory) (name : List Byte) :
    Nat → Nat → Option Nat → ItemStore → Except Halt (Option Nat × ItemStore)
  | 0, _, fItem, store => .ok (fItem, store)
  | n + 1, i, fItem, store =>
      match directory.itemAt i with
      | none => .error .fault
      | some item =>
          if istrncmp (fat16GetFullRelativeFilename item) name maxPath = 0 then
            match fat16NewFatItemForDirectoryItem loadFatDirectory (mem i) item with
            | none => findItemLoop mem directory name n (i + 1) none store
            | some made =>
                findItemLoop mem directory name n (i + 1) (some store.length)
                  (store ++ [some made])
          else
            findItemLoop mem directory name n (i + 1) fItem store

def findItem (mem : Nat → ItemMemory) (directory : FatDirectory) (name : List Byte)
    (store : ItemStore) : Except Halt (Option Nat × ItemStore) :=
  findItemLoop loadFatDirectory mem directory name directory.total.toNat 0 none store

/-- The loop of `fat16_get_directory_entry` over the components that are left,
the first of them number `k`; `mem k` is what `kzalloc` returns for its items. -/
def fat16GetDirectoryEntryLoop (mem : Nat → Nat → ItemMemory) :
    Nat → List CString → Option Nat → ItemStore → Except Halt (Option Nat × ItemStore)
  | _, [], currentItem, store => .ok (currentItem, store)
  | k, part :: parts, currentItem, store =>
      match currentItem with
      | none => .error .fault
      | some p =>
          match store.live p with
          | none => .error .fault
          | some (.file _) => .ok (none, store)
          | some (.directory none) => .error .fault
          | some (.directory (some directory)) => do
              let (tmpItem, store) ← findItem loadFatDirectory (mem k) directory part.bytes store
              let store ← fat16FatItemFree store p
              fat16GetDirectoryEntryLoop mem (k + 1) parts tmpItem store

/-- The item of the path that starts with `part`, and the items made on the way. -/
def fat16GetDirectoryEntry (mem : Nat → Nat → ItemMemory) (root : FatDirectory)
    (part : CString) (parts : List CString) : Except Halt (Option Nat × ItemStore) := do
  let (rootItem, store) ← findItem loadFatDirectory (mem 0) root part.bytes []
  match rootItem with
  | none => pure (none, store)
  | some p => fat16GetDirectoryEntryLoop loadFatDirectory mem 1 parts (some p) store

end Path

/-- The entries of a name, with their indices. -/
def FatDirectory.occurrences (directory : FatDirectory) (name : CString) :
    List (Nat × FatDirectoryItem) :=
  (List.range directory.total.toNat).filterMap fun i =>
    ((directory.itemAt i).filter fun item => SameUpToCase item.fullName name.bytes).map
      fun item => (i, item)

/-- The entry that a lookup of a name leads to: the last of them. -/
def FatDirectory.lookup (directory : FatDirectory) (name : CString) : Option FatDirectoryItem :=
  (directory.occurrences name).getLast?.map Prod.snd

/-- `kzalloc` returns what the item of the last entry of the name needs. -/
def FatDirectory.Allocates (directory : FatDirectory) (mem : Nat → ItemMemory)
    (name : CString) : Prop :=
  ∀ occurrence ∈ (directory.occurrences name).getLast?,
    (mem occurrence.1).item = true ∧
      (occurrence.2.attributes &&& fatFileSubdirectory = 0 → (mem occurrence.1).clone = true)

/-- Directories and files below a root, with the contents of each directory as
they are loaded. -/
structure DirectoryTree where
  root : FatDirectory
  subdirectory : FatDirectoryItem → FatDirectory
  rootInside : root.Inside
  subdirectoryInside : ∀ item, (subdirectory item).Inside

namespace DirectoryTree

variable (tree : DirectoryTree)

/-- What an entry stands for. -/
def itemOf (item : FatDirectoryItem) : FatItem :=
  if item.attributes &&& fatFileSubdirectory ≠ 0 then
    .directory (some (tree.subdirectory item))
  else
    .file (some item)

/-- The item that a path leads to from a directory. -/
def resolve (directory : FatDirectory) (name : CString) : List CString → Option FatItem
  | [] => (directory.lookup name).map tree.itemOf
  | next :: rest =>
      match (directory.lookup name).map tree.itemOf with
      | some (.directory (some below)) => resolve below next rest
      | _ => none

/-- The subdirectories of a tree are loaded as they are. -/
def load (item : FatDirectoryItem) : Option FatDirectory := some (tree.subdirectory item)

/-- The items that a lookup makes, in order, when `kzalloc` returns `mem`. -/
def made (mem : Nat → ItemMemory) (directory : FatDirectory) (name : CString) :
    List (Option FatItem) :=
  (directory.occurrences name).map fun occurrence =>
    fat16NewFatItemForDirectoryItem tree.load (mem occurrence.1) occurrence.2

/-- The item of the last of them. -/
def found (mem : Nat → ItemMemory) (directory : FatDirectory) (name : CString) :
    Option FatItem :=
  (tree.made mem directory name).getLastD none

end DirectoryTree

namespace ItemStore

theorem live_append_left
    {store more : ItemStore} {p : Nat} (h : p < store.length) :
    live (store ++ more) p = live store p := by
  rw [live, live, List.getElem?_append_left h]

theorem live_append_right
    {store more : ItemStore} {p : Nat} (h : store.length ≤ p) :
    live (store ++ more) p = live more (p - store.length) := by
  rw [live, live, List.getElem?_append_right h]

theorem live_set
    (store : ItemStore) (p q : Nat) :
    live (store.set p none) q = if q = p then none else live store q := by
  rw [live, live, List.getElem?_set]
  split_ifs with h₁ h₂ h₃ <;> first | rfl | omega

theorem lt_length_of_live
    {store : ItemStore} {p : Nat} {item : FatItem} (h : store.live p = some item) :
    p < store.length := by
  by_contra hge
  rw [live, List.getElem?_eq_none (Nat.le_of_not_lt hge)] at h
  cases h

end ItemStore

/-- The items that have been made of those that were asked for. -/
def madeItems (items : List (Option FatItem)) : ItemStore := (items.filterMap id).map some

theorem madeItems_append
    (items items' : List (Option FatItem)) :
    madeItems (items ++ items') = madeItems items ++ madeItems items' := by
  simp [madeItems]

/-- The pointer of a lookup behind the items asked for, the first of which is
made at place `next`. -/
def lastPointer : Nat → Option Nat → List (Option FatItem) → Option Nat
  | _, fItem, [] => fItem
  | next, _, none :: items => lastPointer next none items
  | next, _, some _ :: items => lastPointer (next + 1) (some next) items

theorem lastPointer_append
    (next : Nat) (fItem : Option Nat) (items : List (Option FatItem)) (last : Option FatItem) :
    lastPointer next fItem (items ++ [last]) =
      last.map fun _ => next + (madeItems items).length := by
  induction items generalizing next fItem with
  | nil => cases last <;> rfl
  | cons item items ih =>
      cases item with
      | none => exact ih next none
      | some made =>
          rw [List.cons_append, lastPointer, ih]
          simp [madeItems, Nat.add_assoc, Nat.add_comm 1]

/-- The pointer of a lookup leads to the item of the last entry of the name, and
is null when there is none. -/
theorem lastPointer_spec
    (store : ItemStore) (items : List (Option FatItem)) :
    match items.getLastD none with
    | none => lastPointer store.length none items = none
    | some item => ∃ p, lastPointer store.length none items = some p ∧ store.length ≤ p ∧
        (store ++ madeItems items).live p = some item := by
  induction items using List.reverseRecOn with
  | nil => rfl
  | append_singleton items last _ =>
      rw [List.getLastD_concat, lastPointer_append]
      cases last with
      | none => rfl
      | some item =>
          refine ⟨_, rfl, Nat.le_add_right _ _, ?_⟩
          rw [ItemStore.live_append_right (Nat.le_add_right _ _), Nat.add_sub_cancel_left,
            madeItems_append, ItemStore.live_append_right (Nat.le_refl _), Nat.sub_self]
          rfl

theorem le_of_lastPointer
    {store : ItemStore} {items : List (Option FatItem)} {p : Nat}
    (h : lastPointer store.length none items = some p) :
    store.length ≤ p := by
  have hspec := lastPointer_spec store items
  split at hspec
  · cases hspec.symm.trans h
  · obtain ⟨q, hq, hle, -⟩ := hspec
    exact Option.some.inj (hq.symm.trans h) ▸ hle

/-- The items that have been made are there. -/
theorem live_madeItems
    (items : List (Option FatItem)) {q : Nat} (hq : q < (madeItems items).length) :
    ∃ item, (madeItems items).live q = some item := by
  rw [madeItems, List.length_map] at hq
  refine ⟨(items.filterMap id)[q], ?_⟩
  rw [ItemStore.live, madeItems, List.getElem?_map, List.getElem?_eq_getElem hq]
  rfl

section Lookup

variable (loadFatDirectory : FatDirectoryItem → Option FatDirectory) (mem : Nat → ItemMemory)

/-- The items asked for by `n` rounds of a lookup from index `i` on. -/
def itemsFrom (directory : FatDirectory) (name : CString) (n i : Nat) : List (Option FatItem) :=
  ((List.range' i n).filterMap fun k =>
    ((directory.itemAt k).filter fun item => SameUpToCase item.fullName name.bytes).map
      fun item => (k, item)).map fun occurrence =>
        fat16NewFatItemForDirectoryItem loadFatDirectory (mem occurrence.1) occurrence.2

/-- An index below the total is one of an entry. -/
theorem itemAt_of_inside
    {directory : FatDirectory} {i : Nat}
    (h : (i + 1) * directoryItemSize ≤ directory.item.length) :
    ∃ item, directory.itemAt i = some item ∧ item.filename.length ≤ 8 ∧ item.ext.length ≤ 3 :=
  ⟨_, if_pos h, FatDirectoryItem.length_ofBytes _⟩

theorem itemsFrom_succ
    {directory : FatDirectory} {i : Nat} {item : FatDirectoryItem}
    (hitem : directory.itemAt i = some item) (name : CString) (n : Nat) :
    itemsFrom loadFatDirectory mem directory name (n + 1) i =
      if SameUpToCase item.fullName name.bytes then
        fat16NewFatItemForDirectoryItem loadFatDirectory (mem i) item ::
          itemsFrom loadFatDirectory mem directory name n (i + 1)
      else
        itemsFrom loadFatDirectory mem directory name n (i + 1) := by
  rw [itemsFrom, List.range'_succ, List.filterMap_cons, hitem, Option.filter_some]
  by_cases h : SameUpToCase item.fullName name.bytes
  · rw [if_pos h, if_pos (decide_eq_true h)]
    rfl
  · rw [if_neg h, if_neg (by simpa using h)]
    rfl

/-- A lookup makes the items of the name one after the other and keeps the
pointer of the last. -/
theorem findItemLoop_eq
    {directory : FatDirectory} {name : CString} {n i : Nat}
    (hinside : (i + n) * directoryItemSize ≤ directory.item.length)
    (fItem : Option Nat) (store : ItemStore) :
    findItemLoop loadFatDirectory mem directory name.bytes n i fItem store =
      .ok (lastPointer store.length fItem
          (itemsFrom loadFatDirectory mem directory name n i),
        store ++ madeItems (itemsFrom loadFatDirectory mem directory name n i)) := by
  induction n generalizing i fItem store with
  | zero => simp [findItemLoop, itemsFrom, lastPointer, madeItems]
  | succ n ih =>
      have hle : (i + 1) * directoryItemSize ≤ (i + (n + 1)) * directoryItemSize :=
        Nat.mul_le_mul_right _ (by omega)
      obtain ⟨item, hitem, hlength⟩ := itemAt_of_inside (Nat.le_trans hle hinside)
      have hrest := fun fItem store => ih (i := i + 1)
        (by rwa [show i + 1 + n = i + (n + 1) by omega]) fItem store
      rw [findItemLoop, hitem, itemsFrom_succ loadFatDirectory mem hitem]
      simp only [istrncmp_fullRelativeFilename_iff hlength]
      split_ifs with hname
      · cases fat16NewFatItemForDirectoryItem loadFatDirectory (mem i) item with
        | none => exact hrest none store
        | some made =>
            simp only [hrest, lastPointer, List.length_append, List.length_singleton]
            simp [madeItems]
      · exact hrest fItem store

/-- The lookup that does not keep the pointers finds the item of the last. -/
theorem fat16FindItemInDirectoryLoop_eq
    {directory : FatDirectory} {name : CString} {n i : Nat}
    (hinside : (i + n) * directoryItemSize ≤ directory.item.length) (fItem : Option FatItem) :
    fat16FindItemInDirectoryLoop loadFatDirectory mem directory name.bytes n i fItem =
      .ok ((itemsFrom loadFatDirectory mem directory name n i).getLastD fItem) := by
  induction n generalizing i fItem with
  | zero => rfl
  | succ n ih =>
      have hle : (i + 1) * directoryItemSize ≤ (i + (n + 1)) * directoryItemSize :=
        Nat.mul_le_mul_right _ (by omega)
      obtain ⟨item, hitem, hlength⟩ := itemAt_of_inside (Nat.le_trans hle hinside)
      have hrest := fun fItem => ih (i := i + 1)
        (by rwa [show i + 1 + n = i + (n + 1) by omega]) fItem
      rw [fat16FindItemInDirectoryLoop, hitem, itemsFrom_succ loadFatDirectory mem hitem]
      simp only [istrncmp_fullRelativeFilename_iff hlength]
      split_ifs with hname
      · rw [hrest, List.getLastD_cons]
      · exact hrest fItem

end Lookup

section Frame

variable (loadFatDirectory : FatDirectoryItem → Option FatDirectory)

/-- A lookup adds items behind those that are there. -/
theorem findItemLoop_appends
    {mem : Nat → ItemMemory} {directory : FatDirectory} {name : List Byte} {n i : Nat}
    {fItem res : Option Nat} {store store' : ItemStore}
    (h : findItemLoop loadFatDirectory mem directory name n i fItem store = .ok (res, store')) :
    (∃ more, store' = store ++ more) ∧
      ∀ p, res = some p → fItem = some p ∨ store.length ≤ p := by
  induction n generalizing i fItem store with
  | zero =>
      obtain ⟨rfl, rfl⟩ := Prod.mk.inj (Except.ok.inj h)
      exact ⟨⟨[], (List.append_nil _).symm⟩, fun p hp => Or.inl hp⟩
  | succ n ih =>
      rw [findItemLoop] at h
      split at h
      · cases h
      · split_ifs at h
        · split at h
          · obtain ⟨happend, hres⟩ := ih h
            exact ⟨happend, fun p hp => (hres p hp).resolve_left nofun |> Or.inr⟩
          · obtain ⟨⟨more, hmore⟩, hres⟩ := ih h
            refine ⟨⟨_, by rw [hmore, List.append_assoc]⟩, fun p hp => Or.inr ?_⟩
            rcases hres p hp with hlast | hlater
            · exact (Option.some.inj hlast).le
            · rw [List.length_append] at hlater
              omega
        · exact ih h

/-- The loop frees the current item and those that it finds, and no other. -/
theorem fat16GetDirectoryEntryLoop_frame
    {mem : Nat → Nat → ItemMemory} {k : Nat} {parts : List CString}
    {currentItem res : Option Nat} {store store' : ItemStore}
    (h : fat16GetDirectoryEntryLoop loadFatDirectory mem k parts currentItem store =
      .ok (res, store'))
    {q : Nat} (hq : q < store.length) (hne : currentItem ≠ some q) :
    store'.live q = store.live q := by
  induction parts generalizing k currentItem store with
  | nil =>
      obtain ⟨-, rfl⟩ := Prod.mk.inj (Except.ok.inj h)
      rfl
  | cons part parts ih =>
      cases currentItem with
      | none => cases h
      | some p =>
        simp only [fat16GetDirectoryEntryLoop] at h
        split at h
        · cases h
        · obtain ⟨-, rfl⟩ := Prod.mk.inj (Except.ok.inj h)
          rfl
        · cases h
        · rename_i directory _
          rw [bind_eq_ok_iff] at h
          obtain ⟨⟨tmpItem, found⟩, hfind, h⟩ := h
          dsimp only at h
          rw [bind_eq_ok_iff] at h
          obtain ⟨after, hfree, h⟩ := h
          obtain ⟨⟨more, rfl⟩, htmp⟩ := findItemLoop_appends loadFatDirectory hfind
          obtain rfl : after = (store ++ more).set p none := by
            unfold fat16FatItemFree at hfree
            split at hfree
            · cases hfree
            · cases hfree
            · exact (Except.ok.inj hfree).symm
          have hpq : q ≠ p := fun heq => hne (congrArg some heq.symm)
          rw [ih h (by rw [List.length_set, List.length_append]; omega) ?_, ItemStore.live_set,
            if_neg hpq, ItemStore.live_append_left hq]
          intro htmpq
          rcases htmp q htmpq with hnone | hge
          · cases hnone
          · omega

end Frame

namespace DirectoryTree

variable (tree : DirectoryTree)

theorem made_eq_itemsFrom
    (mem : Nat → ItemMemory) (directory : FatDirectory) (name : CString) :
    tree.made mem directory name =
      itemsFrom tree.load mem directory name directory.total.toNat 0 := by
  rw [made, FatDirectory.occurrences, itemsFrom, List.range_eq_range']

/-- A lookup in a directory of the tree. -/
theorem findItem_eq
    {directory : FatDirectory} (hinside : directory.Inside) (mem : Nat → ItemMemory)
    (name : CString) (store : ItemStore) :
    findItem tree.load mem directory name.bytes store =
      .ok (lastPointer store.length none (tree.made mem directory name),
        store ++ madeItems (tree.made mem directory name)) := by
  rw [made_eq_itemsFrom]
  exact findItemLoop_eq tree.load mem (by rwa [Nat.zero_add]) none store

/-- It finds what the lookup without pointers finds. -/
theorem fat16FindItemInDirectory_eq_found
    {directory : FatDirectory} (hinside : directory.Inside) (mem : Nat → ItemMemory)
    (name : CString) :
    fat16FindItemInDirectory tree.load mem directory name.bytes =
      .ok (tree.found mem directory name) := by
  rw [found, made_eq_itemsFrom]
  exact fat16FindItemInDirectoryLoop_eq tree.load mem (by rwa [Nat.zero_add]) none

theorem itemOf_directory
    {item : FatDirectoryItem} (h : item.attributes &&& fatFileSubdirectory ≠ 0) :
    tree.itemOf item = .directory (some (tree.subdirectory item)) :=
  if_pos h

theorem itemOf_file
    {item : FatDirectoryItem} (h : item.attributes &&& fatFileSubdirectory = 0) :
    tree.itemOf item = .file (some item) :=
  if_neg (not_not_intro h)

theorem fat16NewFatItem_directory
    {item : FatDirectoryItem} (h : item.attributes &&& fatFileSubdirectory ≠ 0)
    (mem : ItemMemory) :
    fat16NewFatItemForDirectoryItem tree.load mem item =
      if mem.item then some (.directory (some (tree.subdirectory item))) else none := by
  rw [fat16NewFatItemForDirectoryItem, if_pos h]
  cases mem.item <;> rfl

theorem fat16NewFatItem_file
    {item : FatDirectoryItem} (h : item.attributes &&& fatFileSubdirectory = 0)
    (mem : ItemMemory) :
    fat16NewFatItemForDirectoryItem tree.load mem item =
      if mem.item then some (.file (if mem.clone then some item else none)) else none := by
  rw [fat16NewFatItemForDirectoryItem, if_neg (not_not_intro h)]
  cases mem.item <;> cases hclone : mem.clone <;>
    simp [fat16CloneDirectoryItem, directoryItemSize, hclone]

/-- No item is made where no entry has the name. -/
theorem lookup_eq_none_iff
    (directory : FatDirectory) (name : CString) :
    directory.lookup name = none ↔ directory.occurrences name = [] := by
  rw [FatDirectory.lookup, Option.map_eq_none_iff, List.getLast?_eq_none_iff]

/-- The items made are counted by what `kzalloc` returns for them. -/
theorem length_madeItems_made
    (mem : Nat → ItemMemory) (directory : FatDirectory) (name : CString) :
    (madeItems (tree.made mem directory name)).length =
      (directory.occurrences name).countP fun occurrence => (mem occurrence.1).item := by
  rw [madeItems, made, List.length_map]
  induction directory.occurrences name with
  | nil => rfl
  | cons occurrence occurrences ih =>
      rw [List.map_cons, List.countP_cons, ← ih]
      cases hmem : (mem occurrence.1).item with
      | false => simp [fat16NewFatItemForDirectoryItem, hmem]
      | true =>
          obtain ⟨item, hitem⟩ := Option.isSome_iff_exists.mp
            ((isSome_fat16NewFatItemForDirectoryItem tree.load _ occurrence.2).mpr hmem)
          rw [hitem]
          simp

/-- A lookup finds nothing where the last item is not made. -/
theorem found_eq
    (mem : Nat → ItemMemory) (directory : FatDirectory) (name : CString) :
    tree.found mem directory name =
      (directory.occurrences name).getLast?.bind fun occurrence =>
        fat16NewFatItemForDirectoryItem tree.load (mem occurrence.1) occurrence.2 := by
  rw [found, made]
  induction directory.occurrences name using List.reverseRecOn with
  | nil => rfl
  | append_singleton occurrences last _ =>
      rw [List.map_append, List.map_singleton, List.getLastD_concat, List.getLast?_concat]
      rfl

/-- The item found stands for the entry when `kzalloc` returns what it needs. -/
theorem found_eq_iff
    (mem : Nat → ItemMemory) (directory : FatDirectory) (name : CString) :
    tree.found mem directory name = (directory.lookup name).map tree.itemOf ↔
      directory.Allocates mem name := by
  rw [found_eq, FatDirectory.lookup, FatDirectory.Allocates]
  cases (directory.occurrences name).getLast? with
  | none => simp
  | some occurrence =>
      simp only [Option.bind_some, Option.map_some, Option.mem_some_iff, forall_eq']
      by_cases hdir : occurrence.2.attributes &&& fatFileSubdirectory = 0
      · rw [itemOf_file tree hdir, fat16NewFatItem_file tree hdir]
        cases (mem occurrence.1).item <;> cases (mem occurrence.1).clone <;> simp [hdir]
      · rw [itemOf_directory tree hdir, fat16NewFatItem_directory tree hdir]
        cases (mem occurrence.1).item with
        | false => simp
        | true => simpa using fun hfile => absurd hfile hdir

/-- A run ends with the item the path leads to, or with none and nothing left of
what it made beyond `base`. -/
def Resolves (base : ItemStore) (run : Except Halt (Option Nat × ItemStore))
    (expected : Option FatItem) : Prop :=
  ∃ res store, run = .ok (res, store) ∧
    match expected with
    | some item => ∃ p, res = some p ∧ store.live p = some item
    | none => res = none ∧ ∀ p item, store.live p = some item → base.live p = some item

/-- Every component but the last names a directory, `kzalloc` returns what the
items need, and if the last names nothing then no directory on the way holds two
entries of the name looked up in it. -/
def LeadsOn (mem : Nat → Nat → ItemMemory) :
    Nat → FatDirectory → CString → List CString → Prop
  | k, directory, name, [] => directory.Allocates (mem k) name
  | k, directory, name, next :: rest =>
      directory.Allocates (mem k) name ∧
        ∃ item, directory.lookup name = some item ∧
          item.attributes &&& fatFileSubdirectory ≠ 0 ∧
          LeadsOn mem (k + 1) (tree.subdirectory item) next rest ∧
          (tree.resolve (tree.subdirectory item) next rest = none →
            ((directory.occurrences name).countP fun occurrence =>
              (mem k occurrence.1).item) = 1)

/-- The loop of the components behind `name`, once the items of that have been
made. -/
def runFrom (mem : Nat → Nat → ItemMemory) (k : Nat) (directory : FatDirectory)
    (name : CString) (rest : List CString) (base : ItemStore) :
    Except Halt (Option Nat × ItemStore) :=
  fat16GetDirectoryEntryLoop tree.load mem (k + 1) rest
    (lastPointer base.length none (tree.made (mem k) directory name))
    (base ++ madeItems (tree.made (mem k) directory name))

/-- The pointer of a lookup that finds nothing is null. -/
theorem lastPointer_of_found_none
    {mem : Nat → ItemMemory} {directory : FatDirectory} {name : CString}
    (h : tree.found mem directory name = none) (base : ItemStore) :
    lastPointer base.length none (tree.made mem directory name) = none := by
  have hspec := lastPointer_spec base (tree.made mem directory name)
  rwa [show (tree.made mem directory name).getLastD none = none from h] at hspec

/-- The pointer of a lookup that finds an item leads to it. -/
theorem lastPointer_of_found_some
    {mem : Nat → ItemMemory} {directory : FatDirectory} {name : CString} {item : FatItem}
    (h : tree.found mem directory name = some item) (base : ItemStore) :
    ∃ p, lastPointer base.length none (tree.made mem directory name) = some p ∧
      base.length ≤ p ∧
      ItemStore.live (base ++ madeItems (tree.made mem directory name)) p = some item := by
  have hspec := lastPointer_spec base (tree.made mem directory name)
  rwa [show (tree.made mem directory name).getLastD none = some item from h] at hspec

/-- A run that returns an item is right when the path leads to that item. -/
theorem resolves_some_iff
    {base store : ItemStore} {p : Nat} {item : FatItem} (hlive : store.live p = some item)
    (expected : Option FatItem) :
    Resolves base (.ok (some p, store)) expected ↔ some item = expected := by
  constructor
  · rintro ⟨res, store', heq, hexpected⟩
    obtain ⟨rfl, rfl⟩ := Prod.mk.inj (Except.ok.inj heq)
    cases expected with
    | none => cases hexpected.1
    | some item' =>
        obtain ⟨q, hq, hlive'⟩ := hexpected
        obtain rfl := Option.some.inj hq
        exact hlive.symm.trans hlive'
  · rintro rfl
    exact ⟨_, _, rfl, p, rfl, hlive⟩

/-- A run that returns null is right when the path leads nowhere and nothing is
left of what was made. -/
theorem resolves_null_iff
    (base store : ItemStore) (expected : Option FatItem) :
    Resolves base (.ok (none, store)) expected ↔
      expected = none ∧ ∀ p item, store.live p = some item → base.live p = some item := by
  constructor
  · rintro ⟨res, store', heq, hexpected⟩
    obtain ⟨rfl, rfl⟩ := Prod.mk.inj (Except.ok.inj heq)
    cases expected with
    | none => exact ⟨rfl, hexpected.2⟩
    | some item =>
        obtain ⟨p, hp, -⟩ := hexpected
        cases hp
  · rintro ⟨rfl, hleft⟩
    exact ⟨_, _, rfl, rfl, hleft⟩

/-- At the last component the run is right when the item found is the one the
path leads to. -/
theorem resolves_nil_iff
    (mem : Nat → Nat → ItemMemory) (k : Nat) (directory : FatDirectory) (name : CString)
    (base : ItemStore) :
    Resolves base (tree.runFrom mem k directory name [] base)
        (tree.resolve directory name []) ↔
      tree.LeadsOn mem k directory name [] := by
  rw [LeadsOn, ← found_eq_iff, resolve]
  have hrun : tree.runFrom mem k directory name [] base = .ok
      (lastPointer base.length none (tree.made (mem k) directory name),
        base ++ madeItems (tree.made (mem k) directory name)) := rfl
  rw [hrun]
  cases hfound : tree.found (mem k) directory name with
  | none =>
      rw [tree.lastPointer_of_found_none hfound, resolves_null_iff, eq_comm, and_iff_left_of_imp]
      intro hnone
      rw [made, (lookup_eq_none_iff directory name).mp (Option.map_eq_none_iff.mp hnone.symm)]
      exact fun p item hlive => by rwa [List.map_nil, madeItems, List.filterMap_nil,
        List.map_nil, List.append_nil] at hlive
  | some item =>
      obtain ⟨p, hp, -, hlive⟩ := tree.lastPointer_of_found_some hfound base
      rw [hp, resolves_some_iff hlive]

/-- Where more components follow, the source reads the type of an item that was
not found. -/
theorem not_resolves_of_found_none
    {mem : Nat → Nat → ItemMemory} {k : Nat} {directory : FatDirectory} {name : CString}
    (hfound : tree.found (mem k) directory name = none) (next : CString) (rest : List CString)
    (base : ItemStore) (expected : Option FatItem) :
    ¬ Resolves base (tree.runFrom mem k directory name (next :: rest) base) expected := by
  rw [runFrom, tree.lastPointer_of_found_none hfound]
  rintro ⟨res, store, hrun, -⟩
  cases hrun

/-- Where more components follow, the source returns null and leaves a file that
was found. -/
theorem not_resolves_of_found_file
    {mem : Nat → Nat → ItemMemory} {k : Nat} {directory : FatDirectory} {name : CString}
    {file : Option FatDirectoryItem}
    (hfound : tree.found (mem k) directory name = some (.file file))
    (next : CString) (rest : List CString) (base : ItemStore) (expected : Option FatItem) :
    ¬ Resolves base (tree.runFrom mem k directory name (next :: rest) base) expected := by
  obtain ⟨p, hp, hbase, hlive⟩ := tree.lastPointer_of_found_some hfound base
  have hrun : tree.runFrom mem k directory name (next :: rest) base =
      .ok (none, base ++ madeItems (tree.made (mem k) directory name)) := by
    rw [runFrom, hp, fat16GetDirectoryEntryLoop, hlive]
  rw [hrun, resolves_null_iff]
  rintro ⟨-, hleft⟩
  have := ItemStore.lt_length_of_live (hleft p _ hlive)
  omega

/-- A directory that is not the last component is freed behind the lookup in it,
and the run goes on from there. -/
theorem runFrom_cons_directory
    {mem : Nat → Nat → ItemMemory} {k : Nat} {directory below : FatDirectory} {name : CString}
    (hfound : tree.found (mem k) directory name = some (.directory (some below)))
    (hinside : below.Inside) (next : CString) (rest : List CString) (base : ItemStore) :
    ∃ p, base.length ≤ p ∧
      p < (base ++ madeItems (tree.made (mem k) directory name)).length ∧
      tree.runFrom mem k directory name (next :: rest) base =
        tree.runFrom mem (k + 1) below next rest
          ((base ++ madeItems (tree.made (mem k) directory name)).set p none) := by
  obtain ⟨p, hp, hbase, hlive⟩ := tree.lastPointer_of_found_some hfound base
  have hlt := ItemStore.lt_length_of_live hlive
  refine ⟨p, hbase, hlt, ?_⟩
  rw [runFrom, hp, fat16GetDirectoryEntryLoop]
  simp only [hlive, findItem_eq tree hinside]
  have hfree : fat16FatItemFree
      (base ++ madeItems (tree.made (mem k) directory name) ++
        madeItems (tree.made (mem (k + 1)) below next)) p =
      .ok ((base ++ madeItems (tree.made (mem k) directory name)).set p none ++
        madeItems (tree.made (mem (k + 1)) below next)) := by
    rw [fat16FatItemFree, ItemStore.live_append_left hlt, hlive, List.set_append_left _ _ hlt]
  change (do
    let store ← fat16FatItemFree _ p
    fat16GetDirectoryEntryLoop tree.load mem (k + 1 + 1) rest _ store) = _
  rw [hfree, runFrom, List.length_set]
  rfl

/-- A path that leads nowhere leaves the items of the directory before it, when
these were more than one. -/
theorem resolves_base_iff
    {mem : Nat → Nat → ItemMemory} {k : Nat} {directory : FatDirectory} {name : CString}
    {rest : List CString} {base items : ItemStore} {p : Nat}
    (hitems : ∀ q, q < items.length → ∃ item, items.live q = some item)
    (hbase : base.length ≤ p) (hlt : p < (base ++ items).length) :
    Resolves base (tree.runFrom mem k directory name rest ((base ++ items).set p none)) none ↔
      Resolves ((base ++ items).set p none)
        (tree.runFrom mem k directory name rest ((base ++ items).set p none)) none ∧
      items.length = 1 := by
  have hold : ∀ {q}, q < base.length →
      ItemStore.live ((base ++ items).set p none) q = base.live q := fun {q} hq => by
    rw [ItemStore.live_set, if_neg (by omega), ItemStore.live_append_left hq]
  rw [List.length_append] at hlt
  constructor
  · rintro ⟨res, store, hrun, hres, hleft⟩
    refine ⟨⟨res, store, hrun, hres, fun q item hlive => ?_⟩, ?_⟩
    · rw [hold (ItemStore.lt_length_of_live (hleft q item hlive))]
      exact hleft q item hlive
    · -- another item of the directory would still be there
      by_contra hne
      obtain ⟨q, hq, hqne⟩ : ∃ q, q < items.length ∧ base.length + q ≠ p := by
        rcases Nat.eq_or_lt_of_le hbase with heq | hgt
        · exact ⟨1, by omega, by omega⟩
        · exact ⟨0, by omega, by omega⟩
      obtain ⟨item, hitem⟩ := hitems q hq
      have hlive : ItemStore.live ((base ++ items).set p none) (base.length + q) = some item := by
        rw [ItemStore.live_set, if_neg hqne, ItemStore.live_append_right (Nat.le_add_right _ _),
          Nat.add_sub_cancel_left, hitem]
      have hframe := fat16GetDirectoryEntryLoop_frame tree.load hrun
        (q := base.length + q) (by simp; omega) fun hpointer => by
          have := le_of_lastPointer hpointer
          rw [List.length_set, List.length_append] at this
          omega
      rw [ItemStore.live_append_left (by simp; omega), hlive] at hframe
      have := ItemStore.lt_length_of_live (hleft _ _ hframe)
      omega
  · rintro ⟨⟨res, store, hrun, hres, hleft⟩, hone⟩
    refine ⟨res, store, hrun, hres, fun q item hlive => ?_⟩
    have hq := hleft q item hlive
    rw [ItemStore.live_set] at hq
    split_ifs at hq with hpq
    have hlength := ItemStore.lt_length_of_live hq
    rw [List.length_append] at hlength
    rwa [ItemStore.live_append_left (by omega)] at hq

/-- A directory that is found is the one of the entry. -/
theorem lookup_of_found_directory
    {mem : Nat → ItemMemory} {directory : FatDirectory} {name : CString}
    {below : Option FatDirectory}
    (h : tree.found mem directory name = some (.directory below)) :
    ∃ item, directory.lookup name = some item ∧
      item.attributes &&& fatFileSubdirectory ≠ 0 ∧ below = some (tree.subdirectory item) := by
  rw [found_eq, Option.bind_eq_some_iff] at h
  obtain ⟨occurrence, hlast, hmade⟩ := h
  refine ⟨occurrence.2, by rw [FatDirectory.lookup, hlast]; rfl, ?_⟩
  by_cases hdir : occurrence.2.attributes &&& fatFileSubdirectory = 0
  · rw [fat16NewFatItem_file tree hdir] at hmade
    split_ifs at hmade <;> cases hmade
  · rw [fat16NewFatItem_directory tree hdir] at hmade
    split_ifs at hmade
    cases hmade
    exact ⟨hdir, rfl⟩

/-- The loop resolves the rest of a path exactly when the path leads on. -/
theorem resolves_iff
    (mem : Nat → Nat → ItemMemory) (rest : List CString) :
    ∀ (k : Nat) (directory : FatDirectory) (name : CString) (base : ItemStore),
      Resolves base (tree.runFrom mem k directory name rest base)
          (tree.resolve directory name rest) ↔
        tree.LeadsOn mem k directory name rest := by
  induction rest with
  | nil => exact fun k directory name base => tree.resolves_nil_iff mem k directory name base
  | cons next rest ih =>
      intro k directory name base
      rw [LeadsOn, ← found_eq_iff tree]
      cases hfound : tree.found (mem k) directory name with
      | none =>
          refine iff_of_false (tree.not_resolves_of_found_none hfound next rest base _) ?_
          rintro ⟨hnone, item, hitem, -⟩
          rw [hitem] at hnone
          cases hnone
      | some found =>
        cases found with
        | file file =>
            refine iff_of_false (tree.not_resolves_of_found_file hfound next rest base _) ?_
            rintro ⟨hsame, item, hitem, hdir, -⟩
            rw [hitem, Option.map_some, itemOf_directory tree hdir] at hsame
            cases hsame
        | directory below =>
            obtain ⟨item, hitem, hdir, rfl⟩ := tree.lookup_of_found_directory hfound
            obtain ⟨p, hbase, hlt, hrun⟩ := tree.runFrom_cons_directory hfound
              (tree.subdirectoryInside item) next rest base
            have hnext := ih (k + 1) (tree.subdirectory item) next
              ((base ++ madeItems (tree.made (mem k) directory name)).set p none)
            rw [hrun, resolve, hitem, Option.map_some, itemOf_directory tree hdir]
            simp only [Option.some.injEq, exists_eq_left', true_and, hdir, ne_eq,
              not_false_eq_true]
            rw [← hnext, ← length_madeItems_made tree]
            cases hend : tree.resolve (tree.subdirectory item) next rest with
            | none =>
                rw [resolves_base_iff tree (fun q => live_madeItems _) hbase hlt]
                simp
            | some found => simp [Resolves]

/-- The loop that goes on from the item of the first component. -/
theorem fat16GetDirectoryEntry_eq
    (mem : Nat → Nat → ItemMemory) (name : CString) (rest : List CString) :
    fat16GetDirectoryEntry tree.load mem tree.root name rest =
      match lastPointer 0 none (tree.made (mem 0) tree.root name) with
      | none => .ok (none, madeItems (tree.made (mem 0) tree.root name))
      | some _ => tree.runFrom mem 0 tree.root name rest [] := by
  rw [fat16GetDirectoryEntry, tree.findItem_eq tree.rootInside, runFrom]
  change (match lastPointer 0 none (tree.made (mem 0) tree.root name) with
    | none => _ | some p => _) = _
  cases lastPointer 0 none (tree.made (mem 0) tree.root name) <;> rfl

/-- A path that leads on although nothing is found for its first component is
that component alone, which no entry has for a name. -/
theorem nothing_of_leadsOn
    {mem : Nat → Nat → ItemMemory} {name : CString} {rest : List CString}
    (hfound : tree.found (mem 0) tree.root name = none)
    (h : tree.LeadsOn mem 0 tree.root name rest) :
    (∀ occurrence ∈ tree.root.occurrences name, (mem 0 occurrence.1).item = false) ∧
      tree.resolve tree.root name rest = none := by
  cases rest with
  | nil =>
      rw [LeadsOn, ← found_eq_iff, hfound] at h
      rw [(lookup_eq_none_iff _ _).mp (Option.map_eq_none_iff.mp h.symm)]
      exact ⟨nofun, h.symm⟩
  | cons next rest =>
      obtain ⟨hsame, item, hitem, -⟩ := h
      rw [← found_eq_iff, hfound, hitem] at hsame
      cases hsame

/-- A path is resolved, without a read through a null or freed item and with
nothing left when it leads nowhere, exactly when it leads on, or nothing is made
for a first component that leads nowhere. -/
theorem fat16GetDirectoryEntry_resolves_iff
    (mem : Nat → Nat → ItemMemory) (name : CString) (rest : List CString) :
    Resolves [] (fat16GetDirectoryEntry tree.load mem tree.root name rest)
        (tree.resolve tree.root name rest) ↔
      tree.LeadsOn mem 0 tree.root name rest ∨
        (∀ occurrence ∈ tree.root.occurrences name, (mem 0 occurrence.1).item = false) ∧
          tree.resolve tree.root name rest = none := by
  have hcount := tree.length_madeItems_made (mem 0) tree.root name
  rw [tree.fat16GetDirectoryEntry_eq]
  cases hfound : tree.found (mem 0) tree.root name with
  | none =>
      rw [show lastPointer 0 _ _ = none from tree.lastPointer_of_found_none hfound [],
        or_iff_right_of_imp (tree.nothing_of_leadsOn hfound)]
      dsimp only
      rw [resolves_null_iff, and_comm, and_congr_left_iff]
      refine fun _ => ⟨fun hleft occurrence hmem => ?_, fun hnothing p item hlive => ?_⟩
      · by_contra hmade
        have hpos : 0 < (madeItems (tree.made (mem 0) tree.root name)).length := by
          rw [hcount, List.countP_pos_iff]
          exact ⟨occurrence, hmem, by simpa using hmade⟩
        obtain ⟨item, hlive⟩ := live_madeItems _ hpos
        cases hleft 0 item hlive
      · have hzero := hcount.trans (List.countP_eq_zero.mpr fun occurrence hmem => by
          simp [hnothing occurrence hmem])
        rwa [List.eq_nil_of_length_eq_zero hzero] at hlive
  | some item =>
      obtain ⟨p, hp, -, hlive⟩ := tree.lastPointer_of_found_some hfound []
      rw [show lastPointer 0 _ _ = some p from hp, tree.resolves_iff]
      refine ⟨Or.inl, fun h => h.resolve_right fun hnothing => ?_⟩
      have hzero := hcount.trans (List.countP_eq_zero.mpr fun occurrence hmem => by
        simp [hnothing.1 occurrence hmem])
      have := ItemStore.lt_length_of_live hlive
      rw [List.nil_append] at this
      omega

end DirectoryTree

/-- Every path of every tree is resolved while `kzalloc` has memory. -/
def PathsResolve : Prop :=
  ∀ (tree : DirectoryTree) (mem : Nat → Nat → ItemMemory),
    (∀ k i, mem k i = { item := true, clone := true }) →
      ∀ (name : CString) (rest : List CString),
        DirectoryTree.Resolves [] (fat16GetDirectoryEntry tree.load mem tree.root name rest)
          (tree.resolve tree.root name rest)

/-- The entry of a subdirectory with a name of one letter. -/
def directoryEntry (letter : Byte) : List Byte :=
  letter :: List.replicate 10 0x20 ++ fatFileSubdirectory :: List.replicate 20 0

/-- A root with one directory in it, which is empty. -/
def emptyDirectoryTree : DirectoryTree where
  root := { item := directoryEntry 65, total := 1, sectorPos := 0, endingSectorPos := 0 }
  subdirectory _ := { item := [], total := 0, sectorPos := 0, endingSectorPos := 0 }
  rootInside := Nat.le_refl 32
  subdirectoryInside _ := Nat.le_refl 0

theorem pathsResolve_false : ¬ PathsResolve := by
  intro h
  obtain ⟨res, store, hrun, -⟩ := h emptyDirectoryTree (fun _ _ => ⟨true, true⟩)
    (fun _ _ => rfl) ⟨[65], by decide⟩ [⟨[66], by decide⟩, ⟨[67], by decide⟩]
  have hfault : fat16GetDirectoryEntry emptyDirectoryTree.load (fun _ _ => ⟨true, true⟩)
      emptyDirectoryTree.root ⟨[65], by decide⟩ [⟨[66], by decide⟩, ⟨[67], by decide⟩] =
        .error .fault := by
    rfl
  cases hfault.symm.trans hrun

end PeachOS
