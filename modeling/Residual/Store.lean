/-!
# Stores

Finite maps from hashable keys to values.  The entries of a store stand in buckets, which are
numbered by the hashes of their keys and kept in a binary tree.

A store is evaluated by recursion on its tree alone, whatever the word size of the machine, so that
a proof can run what is built on it.
-/

set_option autoImplicit false

namespace Residual

/-- Lists of entries by number.  The list of zero is at the root, and the lists of `2n + 1` and
`2n + 2` are the list of `n` on the left and on the right. -/
inductive Buckets (Entry : Type) where
  | leaf
  | node (entries : List Entry) (left right : Buckets Entry)

namespace Buckets

variable {Entry Other : Type}

/-- The list of a number. -/
def bucket : Buckets Entry → (number : Nat) → List Entry
  | leaf, _ => []
  | node entries _ _, 0 => entries
  | node _ left right, number + 1 =>
      if number % 2 = 0 then left.bucket (number / 2) else right.bucket (number / 2)

/-- Only the list of one number, which is at most `depth`. -/
def single (entries : List Entry) : (depth number : Nat) → Buckets Entry
  | depth + 1, number + 1 =>
      if number % 2 = 0 then node [] (single entries depth (number / 2)) leaf
      else node [] leaf (single entries depth (number / 2))
  | _, _ => node entries leaf leaf

/-- Changes the list of a number. -/
def modify (f : List Entry → List Entry) : Buckets Entry → (number : Nat) → Buckets Entry
  | leaf, number => single (f []) number number
  | node entries left right, 0 => node (f entries) left right
  | node entries left right, number + 1 =>
      if number % 2 = 0 then node entries (left.modify f (number / 2)) right
      else node entries left (right.modify f (number / 2))

def map (f : Entry → Other) : Buckets Entry → Buckets Other
  | leaf => leaf
  | node entries left right => node (entries.map f) (left.map f) (right.map f)

/-- The lists of both, where `merge` makes one of two. -/
def union (merge : List Entry → List Entry → List Entry) :
    (old new : Buckets Entry) → Buckets Entry
  | old, leaf => old
  | leaf, new => new
  | node entries left right, node entries' left' right' =>
      node (merge entries entries') (left.union merge left') (right.union merge right')

def isEmpty : Buckets Entry → Bool
  | leaf => true
  | node entries left right => entries.isEmpty && left.isEmpty && right.isEmpty

/-- The number of all entries. -/
def size : Buckets Entry → Nat
  | leaf => 0
  | node entries left right => entries.length + left.size + right.size

theorem bucket_leaf (number : Nat) : (leaf : Buckets Entry).bucket number = [] := by
  cases number <;> rfl

theorem bucket_single {entries : List Entry} {depth number other : Nat} (bounded : number ≤ depth) :
    (single entries depth number).bucket other = if other = number then entries else [] := by
  induction depth generalizing number other with
  | zero =>
      obtain rfl : number = 0 := by omega
      cases other <;> simp [single, bucket]
  | succ depth inductionHypothesis =>
      cases number with
      | zero => cases other <;> simp [single, bucket]
      | succ number =>
          have below : number / 2 ≤ depth := by omega
          cases other with
          | zero => simp only [single]; split <;> simp [bucket]
          | succ other =>
              simp only [single]
              split <;> simp only [bucket, inductionHypothesis below] <;> grind

theorem bucket_modify {f : List Entry → List Entry} {buckets : Buckets Entry} {number other : Nat} :
    (buckets.modify f number).bucket other =
      if other = number then f (buckets.bucket number) else buckets.bucket other := by
  induction buckets generalizing number other with
  | leaf => simp only [modify, bucket_single (Nat.le_refl number), bucket_leaf]
  | node entries left right inductionHypothesis inductionHypothesis' =>
      cases number with
      | zero => cases other <;> simp [modify, bucket]
      | succ number =>
          cases other with
          | zero => simp only [modify]; split <;> simp [bucket]
          | succ other =>
              simp only [modify]
              split <;> simp only [bucket, inductionHypothesis, inductionHypothesis'] <;> grind

theorem bucket_map {f : Entry → Other} {buckets : Buckets Entry} {number : Nat} :
    (buckets.map f).bucket number = (buckets.bucket number).map f := by
  induction buckets generalizing number with
  | leaf => simp [map, bucket_leaf]
  | node entries left right inductionHypothesis inductionHypothesis' =>
      cases number with
      | zero => rfl
      | succ number =>
          simp only [map, bucket, inductionHypothesis, inductionHypothesis']
          split <;> rfl

/-- The list of a number is that of one of both, or made of both. -/
theorem bucket_union {merge : List Entry → List Entry → List Entry}
    {old new : Buckets Entry} {number : Nat} {motive : List Entry → Prop}
    (onlyOld : new.bucket number = [] → motive (old.bucket number))
    (onlyNew : old.bucket number = [] → motive (new.bucket number))
    (both : motive (merge (old.bucket number) (new.bucket number))) :
    motive ((old.union merge new).bucket number) := by
  induction old generalizing new number with
  | leaf =>
      cases new with
      | leaf => exact onlyOld (bucket_leaf number)
      | node => exact onlyNew (bucket_leaf number)
  | node entries left right inductionHypothesis inductionHypothesis' =>
      cases new with
      | leaf => exact onlyOld (bucket_leaf number)
      | node =>
          cases number with
          | zero => exact both
          | succ number =>
              simp only [union, bucket] at onlyOld onlyNew both ⊢
              split at both
              · simp_all
              · simp_all

theorem isEmpty_iff {buckets : Buckets Entry} :
    buckets.isEmpty = true ↔ ∀ number, buckets.bucket number = [] := by
  induction buckets with
  | leaf => simp [isEmpty, bucket_leaf]
  | node entries left right inductionHypothesis inductionHypothesis' =>
      simp only [isEmpty, Bool.and_eq_true, inductionHypothesis, inductionHypothesis',
        List.isEmpty_iff]
      constructor
      · rintro ⟨⟨here, atLeft⟩, atRight⟩ (_ | number)
        · exact here
        · simp [bucket, atLeft, atRight]
      · intro nowhere
        refine ⟨⟨nowhere 0, fun number => ?_⟩, fun number => ?_⟩
        · simpa [bucket] using nowhere (2 * number + 1)
        · simpa [bucket, show (2 * number + 1) / 2 = number by omega] using nowhere (2 * number + 2)

end Buckets
/-! ## Entries of a bucket -/

section Entries

variable {Key Value : Type} [BEq Key]

/-- The value stands at the key, in the place of an earlier one. -/
def put (key : Key) (value : Value) : List (Key × Value) → List (Key × Value)
  | [] => [(key, value)]
  | entry :: entries =>
      if entry.1 == key then (key, value) :: entries else entry :: put key value entries

/-- The values of the second list stand in the place of those of the first one. -/
def overwrite (entries entries' : List (Key × Value)) : List (Key × Value) :=
  entries'.foldr (fun entry => put entry.1 entry.2) entries

theorem mem_of_mem_put {key : Key} {value : Value} {entries : List (Key × Value)}
    {entry : Key × Value} (isEntry : entry ∈ put key value entries) :
    entry = (key, value) ∨ entry ∈ entries := by
  induction entries with
  | nil => simpa [put] using isEntry
  | cons first entries inductionHypothesis => grind [put]

theorem mem_of_mem_overwrite {entries entries' : List (Key × Value)} {entry : Key × Value}
    (isEntry : entry ∈ overwrite entries entries') : entry ∈ entries ∨ entry ∈ entries' := by
  induction entries' with
  | nil => exact .inl isEntry
  | cons first entries' inductionHypothesis =>
      rcases mem_of_mem_put isEntry with rfl | isEntry
      · exact .inr (List.mem_cons_self ..)
      · exact (inductionHypothesis isEntry).imp_right (List.mem_cons_of_mem _)

variable [LawfulBEq Key]

theorem lookup_put {key other : Key} {value : Value} {entries : List (Key × Value)} :
    (put key value entries).lookup other =
      if other == key then some value else entries.lookup other := by
  induction entries with
  | nil => simp only [put, List.lookup_cons]; grind
  | cons first entries inductionHypothesis => grind [put]

theorem lookup_overwrite {key : Key} {entries entries' : List (Key × Value)} :
    (overwrite entries entries').lookup key = (entries'.lookup key).or (entries.lookup key) := by
  induction entries' with
  | nil => rfl
  | cons first entries' inductionHypothesis =>
      change (put first.1 first.2 (overwrite entries entries')).lookup key = _
      rw [lookup_put, inductionHypothesis, List.lookup_cons]
      grind

end Entries

/-- Values at keys.  An entry stands in the bucket that its hash gives. -/
structure Store (Key Value : Type) [BEq Key] [Hashable Key] where
  buckets : Buckets (Key × Value)
  placed : ∀ number, ∀ entry ∈ buckets.bucket number, (hash entry.1).toNat = number

namespace Store

variable {Key Value Other : Type} [BEq Key] [Hashable Key]

def empty : Store Key Value where
  buckets := .leaf
  placed number entry isEntry := by simp [Buckets.bucket_leaf] at isEntry

instance : EmptyCollection (Store Key Value) := ⟨empty⟩

/-- The value at a key. -/
def get? (store : Store Key Value) (key : Key) : Option Value :=
  (store.buckets.bucket (hash key).toNat).lookup key

instance : GetElem? (Store Key Value) Key Value fun store key => (store.get? key).isSome where
  getElem store key isKey := (store.get? key).get isKey
  getElem? store key := store.get? key

/-- Puts a value at a key. -/
def insert (store : Store Key Value) (key : Key) (value : Value) : Store Key Value where
  buckets := store.buckets.modify (put key value) (hash key).toNat
  placed number entry isEntry := by
    rw [Buckets.bucket_modify] at isEntry
    split at isEntry
    case isTrue here =>
      rcases mem_of_mem_put isEntry with rfl | isEntry
      · exact here.symm
      · exact (store.placed _ entry isEntry).trans here.symm
    case isFalse => exact store.placed number entry isEntry

/-- Changes the value at a key, if there is one. -/
def modify (store : Store Key Value) (key : Key) (f : Value → Value) : Store Key Value :=
  match store[key]? with
  | some value => store.insert key (f value)
  | none => store

def map (f : Key → Value → Other) (store : Store Key Value) : Store Key Other where
  buckets := store.buckets.map fun entry => (entry.1, f entry.1 entry.2)
  placed number entry isEntry := by
    rw [Buckets.bucket_map] at isEntry
    obtain ⟨entry', isEntry', rfl⟩ := List.mem_map.mp isEntry
    exact store.placed number entry' isEntry'

/-- The values of both, where those of the second store come first. -/
def union (old new : Store Key Value) : Store Key Value where
  buckets := old.buckets.union overwrite new.buckets
  placed number := by
    refine Buckets.bucket_union
      (motive := fun entries : List (Key × Value) =>
        ∀ entry ∈ entries, (hash entry.1).toNat = number)
      (fun _ => old.placed number) (fun _ => new.placed number) ?_
    exact fun entry isEntry =>
      (mem_of_mem_overwrite isEntry).elim (old.placed number entry) (new.placed number entry)

def isEmpty (store : Store Key Value) : Bool :=
  store.buckets.isEmpty

/-- The number of keys. -/
def size (store : Store Key Value) : Nat :=
  store.buckets.size

variable {store : Store Key Value} {key other : Key} {value : Value}

@[simp]
theorem getElem?_empty : (∅ : Store Key Value)[key]? = none := by
  change (Buckets.leaf.bucket (hash key).toNat).lookup key = none
  rw [Buckets.bucket_leaf]
  rfl

section Lawful

variable [LawfulBEq Key]

theorem getElem?_insert :
    (store.insert key value)[other]? = if other == key then some value else store[other]? := by
  change ((store.buckets.modify _ _).bucket _).lookup other = _
  rw [Buckets.bucket_modify]
  split
  case isTrue here => rw [lookup_put, ← here]; rfl
  case isFalse elsewhere =>
    have distinct : other ≠ key := fun same => elsewhere (same ▸ rfl)
    rw [if_neg (by simpa using distinct)]
    rfl

theorem getElem?_modify {f : Value → Value} :
    (store.modify key f)[other]? = if other == key then store[other]?.map f else store[other]? := by
  unfold modify
  by_cases same : other = key
  · subst same
    cases found : store[other]? with
    | none => simp [found]
    | some value => simp [getElem?_insert]
  · cases store[key]? with
    | none => simp [same]
    | some value => simp [getElem?_insert, same]

theorem getElem?_map {f : Key → Value → Other} :
    (store.map f)[key]? = store[key]?.map (f key) := by
  change ((store.buckets.map _).bucket _).lookup key = ((store.buckets.bucket _).lookup key).map _
  rw [Buckets.bucket_map]
  induction store.buckets.bucket (hash key).toNat with
  | nil => rfl
  | cons entry entries inductionHypothesis => grind

theorem getElem?_union {old new : Store Key Value} :
    (old.union new)[key]? = new[key]?.or old[key]? := by
  change ((old.buckets.union _ new.buckets).bucket _).lookup key =
    ((new.buckets.bucket _).lookup key).or ((old.buckets.bucket _).lookup key)
  refine Buckets.bucket_union (motive := fun entries => entries.lookup key = _) ?_ ?_ ?_
  · intro nothing
    rw [nothing]
    rfl
  · intro nothing
    rw [nothing]
    simp
  · exact lookup_overwrite

/-- A store is empty if it has no value at any key. -/
theorem isEmpty_iff : store.isEmpty = true ↔ ∀ key : Key, store[key]? = none := by
  unfold isEmpty
  rw [Buckets.isEmpty_iff]
  constructor
  · intro nowhere key
    change (store.buckets.bucket _).lookup key = none
    rw [nowhere]
    rfl
  · intro nowhere number
    rw [List.eq_nil_iff_forall_not_mem]
    intro entry isEntry
    have absent : (store.buckets.bucket (hash entry.1).toNat).lookup entry.1 = none :=
      nowhere entry.1
    rw [store.placed number entry isEntry, List.lookup_eq_none_iff] at absent
    simpa using absent entry isEntry

end Lawful

end Store

-- The equations above say all there is to know about stores.
attribute [irreducible] Store.get? Store.insert Store.modify Store.map Store.union Store.isEmpty

end Residual
