import CallGuard.Folder
import Mathlib.Data.List.Basic
set_option autoImplicit false

/-!
# Trees and their contents

A tree that a file system holds lists proper names, each once in a directory. Giving files new
contents leaves such a tree its shape: the same entries in the same order, of the same kind.
-/
namespace CallGuard

/-- Neither empty nor a step of a path, and no path by itself. -/
def Name.isProper (n : Name) : Bool :=
  n != [] && n != "." && n != ".." && !n.contains Bytes.slash

namespace Folder

def names : Folder → List Name
  | nil => []
  | file n _ rest | link n _ rest | dir n _ rest => n :: rest.names

/-- Each directory lists proper names, and none of them twice. -/
def isProper : Folder → Bool
  | nil => true
  | file n _ rest | link n _ rest => n.isProper && !rest.names.contains n && rest.isProper
  | dir n inner rest => n.isProper && !rest.names.contains n && (rest.isProper && inner.isProper)

/-- The same tree with new contents; `f` has the new content of a file by its location and its old
content. -/
def refill (f : List Name → ByteArray → ByteArray) : Folder → Folder
  | nil => nil
  | file n c rest => file n (f [n] c) (rest.refill f)
  | link n t rest => link n t (rest.refill f)
  | dir n inner rest => dir n (inner.refill fun loc => f (n :: loc)) (rest.refill f)

/-- What is left of a tree without its contents. -/
def shape (top : Folder) : Folder := top.refill fun _ _ => .empty

end Folder

namespace Entry

def isProper : Entry → Bool
  | .file _ | .link _ => true
  | .dir inner => inner.isProper

def refill (f : List Name → ByteArray → ByteArray) : Entry → Entry
  | .file c => .file (f [] c)
  | .link t => .link t
  | .dir inner => .dir (inner.refill f)

end Entry

namespace Folder

variable {top rest inner : Folder} {f g : List Name → ByteArray → ByteArray} {n m : Name}
  {loc l : List Name} {c : ByteArray} {e : Entry}

/-! ## One entry at a time -/

/-- A folder is empty or lists an entry first; what holds of the entry's own folder may be used. -/
@[elab_as_elim]
theorem consInduction {motive : Folder → Prop} (nil : motive nil)
    (cons : ∀ n e rest, (∀ inner, e = Entry.dir inner → motive inner) → motive rest →
      motive (Folder.cons n e rest)) (top : Folder) : motive top := by
  induction top with
  | nil => exact nil
  | file n c rest ih => exact cons n (.file c) rest (fun _ h => by cases h) ih
  | link n t rest ih => exact cons n (.link t) rest (fun _ h => by cases h) ih
  | dir n inner rest ih ih' => exact cons n (.dir inner) rest (fun _ h => by cases h; exact ih) ih'

theorem find?_cons (n m : Name) (e : Entry) (rest : Folder) :
    (cons n e rest).find? m = if n = m then some e else rest.find? m := by
  cases e <;> rfl

theorem names_cons (n : Name) (e : Entry) (rest : Folder) :
    (cons n e rest).names = n :: rest.names := by
  cases e <;> rfl

theorem refill_cons (f : List Name → ByteArray → ByteArray) (n : Name) (e : Entry) (rest : Folder) :
    (cons n e rest).refill f = cons n (e.refill fun loc => f (n :: loc)) (rest.refill f) := by
  cases e <;> rfl

theorem insert_cons (n m : Name) (e e' : Entry) (rest : Folder) :
    (cons n e rest).insert m e' = if n = m then cons m e' rest else cons n e (rest.insert m e') := by
  cases e <;> rfl

theorem isProper_cons (n : Name) (e : Entry) (rest : Folder) : (cons n e rest).isProper ↔
    n.isProper ∧ n ∉ rest.names ∧ rest.isProper ∧ e.isProper := by
  cases e <;> simp [cons, isProper, Entry.isProper, and_assoc]

/-! ## Lookup -/

theorem mem_names_of_find? (h : top.find? n = some e) : n ∈ top.names := by
  induction top using consInduction with
  | nil => cases h
  | cons m e' rest _ ih =>
    rw [find?_cons] at h
    rw [names_cons]
    split at h
    · rename_i hm
      exact hm ▸ List.mem_cons_self
    · exact List.mem_cons_of_mem m (ih h)

theorem isProper_of_find? (hw : top.isProper) (h : top.find? n = some e) :
    n.isProper ∧ e.isProper := by
  induction top using consInduction with
  | nil => cases h
  | cons m e' rest _ ih =>
    obtain ⟨hm, -, hrest, he⟩ := (isProper_cons m e' rest).1 hw
    rw [find?_cons] at h
    split at h
    · rename_i heq
      cases h
      exact ⟨heq ▸ hm, he⟩
    · exact ih hrest h

theorem at?_cons_dir (h : top.find? n = some (.dir inner)) (ns : List Name) :
    top.at? (n :: ns) = inner.at? ns := by
  rw [at?, h]

theorem at?_singleton (h : top.find? n = some e) : top.at? [n] = some e := by
  rw [at?, h]
  cases e <;> rfl

theorem exists_of_at?_cons {ns : List Name} (h : top.at? (n :: ns) = some e) :
    (ns = [] ∧ top.find? n = some e) ∨
      ∃ inner, top.find? n = some (.dir inner) ∧ inner.at? ns = some e := by
  rw [at?] at h
  cases hf : top.find? n with
  | none =>
    rw [hf] at h
    cases h
  | some e' =>
    rw [hf] at h
    cases e' with
    | dir inner => exact Or.inr ⟨inner, rfl, h⟩
    | file c =>
      dsimp only at h
      split at h
      · rename_i hns
        exact Or.inl ⟨hns, h⟩
      · cases h
    | link t =>
      dsimp only at h
      split at h
      · rename_i hns
        exact Or.inl ⟨hns, h⟩
      · cases h

theorem mem_names_of_at? {ns : List Name} (h : top.at? (n :: ns) = some e) : n ∈ top.names := by
  rcases exists_of_at?_cons h with ⟨-, hf⟩ | ⟨inner, hf, -⟩
  · exact mem_names_of_find? hf
  · exact mem_names_of_find? hf

theorem at?_cons_of_ne (hm : n ≠ m) (e : Entry) (rest : Folder) (ms : List Name) :
    (cons n e rest).at? (m :: ms) = rest.at? (m :: ms) := by
  rw [at?, at?, find?_cons, if_neg hm]

/-- Listing another entry first hides nothing in a proper tree. -/
theorem at?_cons_of_at? {ns : List Name} (hn : n ∉ rest.names) (h : rest.at? (m :: ns) = some e)
    (e' : Entry) : (cons n e' rest).at? (m :: ns) = some e := by
  have other : n ≠ m := by
    rintro rfl
    exact hn (mem_names_of_at? h)
  rw [at?_cons_of_ne other, h]

theorem at?_append (h : top.at? loc = some (.dir inner)) (l : List Name) :
    top.at? (loc ++ l) = inner.at? l := by
  induction loc generalizing top with
  | nil =>
    cases h
    rfl
  | cons n ns ih =>
    rcases exists_of_at?_cons h with ⟨rfl, hf⟩ | ⟨inner', hf, h⟩
    · exact at?_cons_dir hf l
    · rw [List.cons_append, at?_cons_dir hf]
      exact ih h

theorem isProper_of_at? (hw : top.isProper) (h : top.at? loc = some e) : e.isProper := by
  induction loc generalizing top with
  | nil =>
    cases h
    exact hw
  | cons n ns ih =>
    rcases exists_of_at?_cons h with ⟨-, hf⟩ | ⟨inner, hf, h⟩
    · exact (isProper_of_find? hw hf).2
    · exact ih (isProper_of_find? hw hf).2 h

/-! ## Refilled trees -/

theorem names_refill (f : List Name → ByteArray → ByteArray) (top : Folder) :
    (top.refill f).names = top.names := by
  induction top using consInduction with
  | nil => rfl
  | cons n e rest _ ih => rw [refill_cons, names_cons, names_cons, ih]

theorem isProper_refill (f : List Name → ByteArray → ByteArray) (top : Folder) :
    (top.refill f).isProper = top.isProper := by
  induction top using consInduction generalizing f with
  | nil => rfl
  | cons n e rest inside ih =>
    have same : (e.refill fun loc => f (n :: loc)).isProper = e.isProper := by
      cases e with
      | file c => rfl
      | link t => rfl
      | dir inner => exact inside inner rfl _
    rw [Bool.eq_iff_iff, refill_cons, isProper_cons, isProper_cons, names_refill, ih, same]

theorem refill_refill (f g : List Name → ByteArray → ByteArray) (top : Folder) :
    (top.refill f).refill g = top.refill fun loc c => g loc (f loc c) := by
  induction top using consInduction generalizing f g with
  | nil => rfl
  | cons n e rest inside ih =>
    rw [refill_cons, refill_cons, refill_cons, ih]
    congr 1
    cases e with
    | file c => rfl
    | link t => rfl
    | dir inner => exact congrArg Entry.dir (inside inner rfl _ _)

theorem shape_refill (f : List Name → ByteArray → ByteArray) (top : Folder) :
    (top.refill f).shape = top.shape :=
  refill_refill f _ top

theorem find?_refill (f : List Name → ByteArray → ByteArray) (n : Name) (top : Folder) :
    (top.refill f).find? n = (top.find? n).map (Entry.refill fun loc => f (n :: loc)) := by
  induction top using consInduction with
  | nil => rfl
  | cons m e rest _ ih =>
    rw [refill_cons, find?_cons, find?_cons]
    split
    · rename_i h
      rw [h]
      rfl
    · exact ih

theorem at?_refill (f : List Name → ByteArray → ByteArray) (loc : List Name) (top : Folder) :
    (top.refill f).at? loc = (top.at? loc).map (Entry.refill fun l => f (loc ++ l)) := by
  induction loc generalizing f top with
  | nil => rfl
  | cons n ns ih =>
    rw [at?, at?, find?_refill]
    cases top.find? n with
    | none => rfl
    | some e =>
      cases e with
      | dir inner => exact ih _ inner
      | file c | link t =>
        dsimp only [Option.map_some, Entry.refill]
        split
        · rename_i h
          rw [h]
          rfl
        · rfl

theorem at?_refill_file (hc : top.at? loc = some (.file c)) (f : List Name → ByteArray → ByteArray) :
    (top.refill f).at? loc = some (.file (f loc c)) := by
  rw [at?_refill, hc, Option.map_some, Entry.refill, List.append_nil]

/-- Only the contents of files that can be reached matter. -/
theorem refill_congr (hw : top.isProper)
    (h : ∀ loc c, top.at? loc = some (.file c) → f loc c = g loc c) :
    top.refill f = top.refill g := by
  induction top using consInduction generalizing f g with
  | nil => rfl
  | cons n e rest inside ih =>
    obtain ⟨-, hn, hrest, he⟩ := (isProper_cons n e rest).1 hw
    have here : (cons n e rest).find? n = some e := by rw [find?_cons, if_pos rfl]
    have below : rest.refill f = rest.refill g := by
      refine ih hrest fun loc c hc => h loc c ?_
      cases loc with
      | nil => cases hc
      | cons m ms => exact at?_cons_of_at? hn hc e
    rw [refill_cons, refill_cons, below]
    congr 1
    cases e with
    | file c => exact congrArg Entry.file (h [n] c (at?_singleton here))
    | link t => rfl
    | dir inner =>
      refine congrArg Entry.dir (inside inner rfl he fun loc c hc => h (n :: loc) c ?_)
      rw [at?_cons_dir here, hc]

theorem refill_id (top : Folder) : (top.refill fun _ c => c) = top := by
  induction top using consInduction with
  | nil => rfl
  | cons n e rest inside ih =>
    rw [refill_cons, ih]
    congr 1
    cases e with
    | file c => rfl
    | link t => rfl
    | dir inner => exact congrArg Entry.dir (inside inner rfl)

theorem entry_refill_id (e : Entry) : (e.refill fun _ c => c) = e := by
  cases e with
  | file c | link t => rfl
  | dir inner => exact congrArg Entry.dir (refill_id inner)

theorem refill_eq_self (hw : top.isProper)
    (h : ∀ loc c, top.at? loc = some (.file c) → f loc c = c) : top.refill f = top :=
  (refill_congr hw h).trans (refill_id top)

/-! ## Trees of one shape -/

variable {top' : Folder}

/-- What no refilling changes is the same in trees of one shape. -/
theorem eq_of_shape_eq {α : Type} (read : Folder → α)
    (hr : ∀ f top, read (Folder.refill f top) = read top) (h : top'.shape = top.shape) :
    read top' = read top := by
  rw [← hr (fun _ _ => .empty) top', ← hr (fun _ _ => .empty) top]
  exact congrArg read h

theorem exists_file_of_shape_eq (h : top'.shape = top.shape) (hc : top.at? loc = some (.file c)) :
    ∃ c', top'.at? loc = some (.file c') := by
  have same : top'.shape.at? loc = top.shape.at? loc := by rw [h]
  rw [shape, shape, at?_refill, at?_refill, hc] at same
  cases ha : top'.at? loc with
  | none =>
    rw [ha] at same
    cases same
  | some e =>
    rw [ha] at same
    cases e with
    | file c' => exact ⟨c', rfl⟩
    | link t => cases same
    | dir inner' => cases same

/-! ## Writing -/

def contentAt (loc : List Name) (new : ByteArray) (l : List Name) (old : ByteArray) : ByteArray :=
  if l = loc then new else old

def belowName (n : Name) (g : List Name → ByteArray → ByteArray) :
    List Name → ByteArray → ByteArray
  | [], old => old
  | m :: ms, old => if m = n then g ms old else old

theorem belowName_self (n : Name) (g : List Name → ByteArray → ByteArray) :
    (fun loc => belowName n g (n :: loc)) = g := by
  funext loc old
  exact if_pos rfl

theorem belowName_of_ne (hm : m ≠ n) (g : List Name → ByteArray → ByteArray) :
    (fun loc => belowName n g (m :: loc)) = fun _ old => old := by
  funext loc old
  exact if_neg hm

theorem belowName_contentAt (n : Name) (loc : List Name) (new : ByteArray) :
    belowName n (contentAt loc new) = contentAt (n :: loc) new := by
  funext l old
  cases l with
  | nil => rfl
  | cons m ms =>
    by_cases hm : m = n
    · simp [belowName, contentAt, hm]
    · simp [belowName, contentAt, hm]

theorem insert_refill (hw : top.isProper) (h : top.find? n = some e) :
    top.insert n (e.refill g) = top.refill (belowName n g) := by
  induction top using consInduction with
  | nil => cases h
  | cons m e' rest _ ih =>
    obtain ⟨-, hm, hrest, -⟩ := (isProper_cons m e' rest).1 hw
    rw [find?_cons] at h
    rw [insert_cons, refill_cons]
    by_cases heq : m = n
    · rw [if_pos heq] at h ⊢
      cases h
      subst heq
      have untouched : rest.refill (belowName m g) = rest := by
        refine refill_eq_self hrest fun loc c hc => ?_
        cases loc with
        | nil => rfl
        | cons k ks =>
          have other : k ≠ m := by
            rintro rfl
            exact hm (mem_names_of_at? hc)
          exact if_neg other
      rw [belowName_self, untouched]
    · rw [if_neg heq] at h ⊢
      rw [ih hrest h, belowName_of_ne heq, entry_refill_id]

/-- Writing a file that exists changes its content and nothing else. -/
theorem put_file (hw : top.isProper) (h : top.at? loc = some (.file c)) (new : ByteArray) :
    top.put (.file new) loc = top.refill (contentAt loc new) := by
  induction loc generalizing top with
  | nil => cases h
  | cons n ns ih =>
    rw [← belowName_contentAt]
    rcases exists_of_at?_cons h with ⟨rfl, hf⟩ | ⟨inner, hf, h⟩
    · rw [← insert_refill hw hf]
      rfl
    · have proper : inner.isProper := (isProper_of_find? hw hf).2
      have below : top.put (.file new) (n :: ns) = top.insert n (.dir (inner.put (.file new) ns)) := by
        cases ns with
        | nil => cases h
        | cons m ms => rw [put, hf]
      rw [below, ih proper h, ← insert_refill hw hf]
      rfl

end Folder

end CallGuard
