import DecompTracker.Text.Split

/-! Names made of scope segments, such as `ksys::act::Foo`. Segments are arbitrary texts and two
names are equal only when their segments are, so `a::b` followed by `c` differs from `a` followed
by `b::c` although both are written the same. Names are ordered segment by segment. -/
namespace DecompTracker

/-- Scopes and the name in them, outermost first; there is always at least one segment. -/
structure QualifiedName where
  segments : List String
  segments_ne_nil : segments ≠ []
  deriving DecidableEq

namespace QualifiedName

theorem eq_of_segments_eq {a b : QualifiedName} (h : a.segments = b.segments) : a = b := by
  cases a; cases b; subst h; rfl

/-- Without any segment the name is the single empty one. -/
def ofSegments : List String → QualifiedName
  | [] => ⟨[""], by simp⟩
  | s :: ss => ⟨s :: ss, by simp⟩

instance : Inhabited QualifiedName := ⟨ofSegments []⟩

theorem segments_ofSegments {ss : List String} (h : ss ≠ []) : (ofSegments ss).segments = ss := by
  cases ss <;> simp_all [ofSegments]

theorem ofSegments_segments (name : QualifiedName) : ofSegments name.segments = name :=
  eq_of_segments_eq (segments_ofSegments name.segments_ne_nil)

/-- What stands between segments when a name is written. -/
def separator : String := "::"

/-- Cuts at every pair of colons, the leftmost pair first. -/
def cutScopes : List Char → List (List Char)
  | ':' :: ':' :: cs => [] :: cutScopes cs
  | c :: cs => Text.consHead c (cutScopes cs)
  | [] => [[]]

/-- Every text is a name; without a separator it has one segment. -/
def parse (written : String) : QualifiedName :=
  ofSegments ((cutScopes written.toList).map String.ofList)

def length (name : QualifiedName) : Nat := name.segments.length

/-- The written form of the whole name. -/
def joined (name : QualifiedName) : String := separator.intercalate name.segments

/-- The written form of the leading `count` segments. -/
def joinedLead (name : QualifiedName) (count : Nat) : String :=
  separator.intercalate (name.segments.take count)

/-- The leading `depth + 1` segments. -/
def lead (name : QualifiedName) (depth : Nat) : QualifiedName :=
  ⟨name.segments.take (depth + 1), by
    have := name.segments_ne_nil
    cases h : name.segments <;> simp_all⟩

/-- Every scope the name lies in, outermost first, and then the name itself. -/
def leads (name : QualifiedName) : List QualifiedName :=
  (List.range name.length).map name.lead

def last (name : QualifiedName) : String := name.segments.getLast name.segments_ne_nil

/-- The segment before the last one: the class that owns a member function. -/
def owner? (name : QualifiedName) : Option String := name.segments.dropLast.getLast?

/-- The outermost scope, which is the name itself when it has no scope. -/
def topLevel (name : QualifiedName) : String := name.segments.head name.segments_ne_nil

/-- Appends a short name to a written scope; the empty scope adds nothing. -/
def within (scope short : String) : QualifiedName :=
  if scope = "" then parse short else parse (scope ++ separator ++ short)

instance : Ord QualifiedName where
  compare a b := compare a.segments b.segments

instance : Std.TransOrd QualifiedName where
  eq_swap := fun {_ _} => @Std.OrientedCmp.eq_swap (List String) compare _ _ _
  isLE_trans := fun {_ _ _} => @Std.TransCmp.isLE_trans (List String) compare _ _ _ _

instance : Std.LawfulEqOrd QualifiedName where
  compare_self := fun {_} => @Std.ReflCmp.compare_self (List String) compare _ _
  eq_of_compare h := eq_of_segments_eq
    (@Std.LawfulEqCmp.eq_of_compare (List String) compare _ _ _ h)

theorem length_pos (name : QualifiedName) : 0 < name.length :=
  List.length_pos_iff.mpr name.segments_ne_nil

theorem cutScopes_ne_nil (cs : List Char) : cutScopes cs ≠ [] := by
  fun_cases cutScopes cs <;> simp [Text.consHead_ne_nil]

theorem segments_parse (written : String) :
    (parse written).segments = (cutScopes written.toList).map String.ofList :=
  segments_ofSegments (by simpa using cutScopes_ne_nil _)

end QualifiedName

end DecompTracker
