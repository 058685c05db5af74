import Ns2.Dsr.Path

/-
  The path cache of a node.

  A node keeps the routes it asked for in a primary and the
  routes it saw being used in a secondary cache.  Both are a
  fixed number of lines with a path each.

  Main declarations:
    * `Cache.addRoute`, `Cache.noticeDeadLink`
    * `Cache.searchRoute`, `Cache.pickVictim`
    * `MobiCache.pre_addRoute`
    * `MobiCache.pre_noticeRouteUsed`
    * `MobiCache.call`, `MobiCache.findRoute`
-/

------------------------------------------------------------
-- One Cache
------------------------------------------------------------

namespace Ns2

namespace Dsr

structure Cache where
  cache : List Path
  victim_ptr : Nat
deriving DecidableEq

/- The number of ids that both lists start with. -/
def commonLen : List ID → List ID → Nat
| a :: as, b :: bs =>
    if a.toHost = b.toHost then commonLen as bs + 1 else 0
| _, _ => 0

/- Give the links of `path` the times that `ids` come with. -/
def freshenLinks : List ID → List ID → List ID
| a :: a' :: as, b :: b' :: bs =>
    if a.toHost = b.toHost then
      (if a'.toHost = b'.toHost then
        { a with t := b.t, link_type := b.link_type }
      else a) :: freshenLinks (a' :: as) (b' :: bs)
    else a :: a' :: as
| as, _ => as

theorem length_freshenLinks
    (as bs : List ID) :
    (freshenLinks as bs).length = as.length := by
  fun_induction freshenLinks as bs with
  | case1 a a' as b b' bs _ ih =>
      simpa using ih
  | case2 => rfl
  | case3 => rfl

/- Where the link from `a` to `b` is on a path. -/
def findLink
    (a b : Host) :
    List ID → Option Nat
| x :: y :: ids =>
    if x.toHost = a ∧ y.toHost = b then some 0
    else (findLink a b (y :: ids)).map (· + 1)
| _ => none

/- The id at `n` is no longer logged. -/
def unlog
    (p : Path)
    (n : Nat) : Path :=
  p.withIds
    (p.path.modify n fun id =>
      { id with log_stat := .LS_UNLOGGED })
    (List.length_modify _ _ _)

/- Kill a path at its first link, or truncate it there. -/
def cutLink
    (a b : Host)
    (p : Path) : Path :=
  match findLink a b p.path with
  | none => p
  | some 0 => p.reset
  | some (n + 1) => unlog (p.setLength (n + 2)) (n + 1)

namespace Cache

def new (size : Nat) : Cache where
  cache := List.replicate size Path.new
  victim_ptr := 0

def size (c : Cache) : Nat :=
  c.cache.length

def line
    (c : Cache)
    (i : Nat) : Path :=
  c.cache.getD i Path.new

/- The hosts on each line. -/
def lines (c : Cache) : List (List Host) :=
  c.cache.map Path.hosts

/- Write a line. -/
def write
    (c : Cache)
    (i : Nat)
    (p : Path) : Cache :=
  { c with cache := c.cache.set i p }

/- An empty line, or the next in turn; no line is excluded. -/
def pickVictim (c : Cache) : Nat × Cache :=
  match c.cache.findIdx? (fun p => p.length = 0) with
  | some i => (i, c)
  | none =>
      (c.victim_ptr,
        { c with
          victim_ptr :=
            if c.victim_ptr + 1 = c.size then 0
            else c.victim_ptr + 1 })

/- The first line that the route contains or is part of. -/
def findSlot
    (c : Cache)
    (path : Path) : Option Nat :=
  c.cache.findIdx? fun p =>
    let n := commonLen p.path path.path
    n = p.length ∨ n = path.length

/- The suffix rule, and the prefix rule. -/
def storeIn
    (c : Cache)
    (path : Path)
    (index : Nat) : Option (Cache × Nat) :=
  let p := c.line index
  let n := commonLen p.path path.path
  if n = p.length then
    (p.appendAll (path.path.drop n)).map fun p =>
      (c.write index p, n)
  else some (c, n)

def storeNew
    (c : Cache)
    (path : Path) : Option (Cache × Nat) :=
  let victim := c.pickVictim.1
  let c := c.pickVictim.2
  (CopyIntoPath (c.line victim).reset path 0
    (path.length - 1)).map fun p => (c.write victim p, 0)

def storeRoute
    (c : Cache)
    (path : Path) : Option (Cache × Nat) :=
  match c.findSlot path with
  | some index => c.storeIn path index
  | none => c.storeNew path

/- Freshen the links that the lines share with the route. -/
def freshen
    (c : Cache)
    (path : Path) : Cache :=
  { c with
    cache := c.cache.map fun p =>
      p.withIds (freshenLinks p.path path.path)
        (length_freshenLinks _ _) }

/- The cache, and the length of the common prefix. -/
def addRoute
    (c : Cache)
    (path : Path) : Option (Cache × Nat) :=
  (c.storeRoute path).map fun r => (r.1.freshen path, r.2)

/- The path that a route drives out of the cache. -/
def evicted
    (c : Cache)
    (path : Path) : Option Path :=
  if (c.findSlot path).isSome then none
  else some (c.line c.pickVictim.1)

def noticeDeadLink
    (c : Cache)
    (a b : Host) : Cache :=
  { c with cache := c.cache.map (cutLink a b) }

/- Look for a host from the line at `index` on. -/
def searchFrom
    (dest : Host)
    (index : Nat) :
    List Path → Option (Nat × Path × Nat)
| [] => none
| p :: paths =>
    match p.hosts.findIdx? (· = dest) with
    | some i => some (i, p, index)
    | none => searchFrom dest (index + 1) paths

/- The place of the host, the path and its line. -/
def searchRoute
    (c : Cache)
    (dest : Host)
    (index : Nat) : Option (Nat × Path × Nat) :=
  searchFrom dest index (c.cache.drop index)

end Cache

end Dsr

end Ns2

------------------------------------------------------------
-- Routes That Come In
------------------------------------------------------------

namespace Ns2

namespace Dsr

structure MobiCache where
  net_id : ID
  MAC_id : ID
  cache_ignore_hints : Bool
  cache_use_overheard_routes : Bool
  primary_cache : Cache
  secondary_cache : Cache

/- From the provider of a route on, links are not tested. -/
def label
    (who_from : Host)
    (t : Rat) :
    Link_Type → List ID → List ID
| _, [] => []
| kind, id :: ids =>
    let kind :=
      if id.toHost = who_from then .LT_UNTESTED else kind
    { id with
      log_stat := .LS_UNLOGGED
      link_type := kind
      t := t } :: label who_from t kind ids

theorem length_label
    (who_from : Host)
    (t : Rat)
    (kind : Link_Type)
    (ids : List ID) :
    (label who_from t kind ids).length = ids.length := by
  induction ids generalizing kind with
  | nil => rfl
  | cons id ids ih => exact congrArg (· + 1) (ih _)

def Path.labelled
    (p : Path)
    (who_from : Host)
    (t : Rat) : Path :=
  p.withIds (label who_from t .LT_TESTED p.path)
    (length_label _ _ _ _)

/- The first link is not tested. -/
def Path.firstUntested (p : Path) : Path :=
  p.withIds
    (p.path.modify 0 fun id =>
      { id with link_type := .LT_UNTESTED })
    (List.length_modify _ _ _)

namespace MobiCache

def new
    (net_id MAC_id : ID)
    (ignore overheard : Bool) : MobiCache where
  net_id := net_id
  MAC_id := MAC_id
  cache_ignore_hints := ignore
  cache_use_overheard_routes := overheard
  primary_cache := Cache.new 30
  secondary_cache := Cache.new 64

/- The id is one of this node. -/
def IsOwn
    (m : MobiCache)
    (host : Host) : Prop :=
  host = m.net_id.toHost ∨ host = m.MAC_id.toHost

instance
    (m : MobiCache)
    (host : Host) :
    Decidable (m.IsOwn host) :=
  inferInstanceAs (Decidable (_ ∨ _))

/- The route to add, unless processing stops. -/
def pre_addRoute
    (m : MobiCache)
    (route : Path)
    (t : Rat)
    (who_from : Host) : Option (Option Path) :=
  if m.net_id.toHost = invalid_addr then none
  else if route.length < 2 then some none
  else if ∃ host ∈ route.hosts.head?, m.IsOwn host then
    some (some (route.labelled who_from t))
  else some none

/- A link to whoever sent the packet is assumed. -/
def overheard
    (m : MobiCache)
    (p : Path) : Option (Option Path) :=
  if m.cache_use_overheard_routes then
    if p.index = 0 then some none
    else
      let i := p.index - 1
      if i < 0 then none
      else
        ((Path.new.appendToPath m.net_id).bind
          (·.appendWhile (p.path.drop i.toNat))).map some
  else some none

/- The part of a route that starts with us at `c`. -/
def subpath
    (p : Path)
    (c : Nat) : Option (Option Path) :=
  if c = p.length - 1 then some none
  else
    (CopyIntoPath Path.new p c (p.length - 1)).map some

/- The stub to add, unless processing stops. -/
def pre_noticeRouteUsed
    (m : MobiCache)
    (p : Path)
    (t : Rat)
    (who_from : Host) : Option (Option Path) :=
  if p.length < 2 then some none
  else if m.cache_ignore_hints then some none
  else
    match p.hosts.findIdx? (fun host => m.IsOwn host) with
    | some c =>
        (subpath p c).map
          (·.map fun stub => stub.labelled who_from t)
    | none =>
        (m.overheard p).map
          (·.map fun stub =>
            (stub.labelled who_from t).firstUntested)

end MobiCache

end Dsr

end Ns2

------------------------------------------------------------
-- Both Caches
------------------------------------------------------------

namespace Ns2

namespace Dsr

/- The best route so far, and the cache that it is in. -/
structure Search where
  min_index : Nat
  min_length : Nat
  min_cache : Nat
  route : Path

namespace Search

def start : Search where
  min_index := 0
  min_length := MAX_SR_LEN + 1
  min_cache := 0
  route := Path.new

/- A route in the primary cache. -/
def primary
    (best : Search)
    (found : Nat × Path × Nat) : Search :=
  let best := { best with min_cache := 2 }
  if found.1 < best.min_length then
    { best with min_length := found.1, route := found.2.1 }
  else best

/- A route in the secondary cache. -/
def secondary
    (best : Search)
    (found : Nat × Path × Nat) : Search :=
  if found.1 < best.min_length then
    { min_index := found.2.2
      min_cache := 1
      min_length := found.1
      route := found.2.1 }
  else best

/-
  Look at every route to the host, from `index` on.  There is
  a line at most for each round.
-/
def overLines
    (better : Search → Nat × Path × Nat → Search)
    (c : Cache)
    (dest : Host) :
    Nat → Nat → Search → Search
| 0, _, best => best
| fuel + 1, index, best =>
    match c.searchRoute dest index with
    | none => best
    | some found =>
        overLines better c dest fuel (found.2.2 + 1)
          (better best found)

end Search

namespace MobiCache

/- Every path of the two caches. -/
def lines (m : MobiCache) : List (List Host) :=
  m.primary_cache.lines ++ m.secondary_cache.lines

def addPrimary
    (m : MobiCache) :
    Option Path → Option MobiCache
| none => some m
| some rt =>
    (m.primary_cache.addRoute rt).map fun r =>
      { m with primary_cache := r.1 }

def addSecondary
    (m : MobiCache) :
    Option Path → Option MobiCache
| none => some m
| some stub =>
    (m.secondary_cache.addRoute stub).map fun r =>
      { m with secondary_cache := r.1 }

def addRoute
    (m : MobiCache)
    (route : Path)
    (t : Rat)
    (who_from : Host) : Option MobiCache :=
  (m.pre_addRoute route t who_from).bind m.addPrimary

def noticeRouteUsed
    (m : MobiCache)
    (p : Path)
    (t : Rat)
    (who_from : Host) : Option MobiCache :=
  (m.pre_noticeRouteUsed p t who_from).bind m.addSecondary

def noticeDeadLink
    (m : MobiCache)
    (a b : Host) : MobiCache :=
  { m with
    primary_cache := m.primary_cache.noticeDeadLink a b
    secondary_cache := m.secondary_cache.noticeDeadLink a b }

/- The shortest route of the primary, then of both caches. -/
def searchBoth
    (m : MobiCache)
    (dest : Host) : Search :=
  Search.overLines Search.secondary m.secondary_cache dest
    m.secondary_cache.size 0
    (Search.overLines Search.primary m.primary_cache dest
      m.primary_cache.size 0 Search.start)

/- Kill a line whose route has moved to the other cache. -/
def killLine
    (c : Cache)
    (i prefix_len : Nat) : Cache :=
  let p := c.line i
  let p := if 0 < prefix_len then p.setLength prefix_len else p
  c.write i (p.setLength 0)

/- Promote a line of the secondary cache. -/
def promote
    (m : MobiCache)
    (i : Nat) : Option MobiCache :=
  (m.primary_cache.addRoute (m.secondary_cache.line i)).map
    fun r =>
      { m with
        primary_cache := r.1
        secondary_cache := killLine m.secondary_cache i r.2 }

/- The cache afterwards, and the route if there is one. -/
def findRoute
    (m : MobiCache)
    (dest : Host)
    (for_me : Bool) : Option (MobiCache × Option Path) :=
  if m.net_id.toHost = invalid_addr then none
  else
    let best := m.searchBoth dest
    (if best.min_cache = 1 ∧ for_me then
      m.promote best.min_index
    else some m).map fun m =>
      (m, if best.min_cache ≠ 0 then
        some (best.route.setLength (best.min_length + 1))
      else none)

/- The path that a promotion drives out, if any. -/
def evicted
    (m : MobiCache)
    (dest : Host)
    (for_me : Bool) : Option Path :=
  let best := m.searchBoth dest
  if best.min_cache = 1 ∧ for_me then
    m.primary_cache.evicted
      (m.secondary_cache.line best.min_index)
  else none

end MobiCache

/- The calls of a node to its cache. -/
inductive CacheCall where
| addRoute (route : Path) (t : Rat) (who_from : Host)
| noticeRouteUsed (p : Path) (t : Rat) (who_from : Host)
| noticeDeadLink (a b : Host)
| findRoute (dest : Host) (for_me : Bool)

namespace MobiCache

def call
    (m : MobiCache) :
    CacheCall → Option MobiCache
| .addRoute route t who_from => m.addRoute route t who_from
| .noticeRouteUsed p t who_from =>
    m.noticeRouteUsed p t who_from
| .noticeDeadLink a b => some (m.noticeDeadLink a b)
| .findRoute dest for_me =>
    (m.findRoute dest for_me).map Prod.fst

/- The route that a call adds to a cache. -/
def added
    (m : MobiCache) :
    CacheCall → Option (Option Path)
| .addRoute route t who_from =>
    m.pre_addRoute route t who_from
| .noticeRouteUsed p t who_from =>
    m.pre_noticeRouteUsed p t who_from
| _ => some none

end MobiCache

/- Routes name no host twice; an index is on its route. -/
def CacheCall.Allowed : CacheCall → Prop
| .addRoute route _ _ => route.hosts.Nodup
| .noticeRouteUsed p _ _ =>
    p.hosts.Nodup ∧ 0 ≤ p.index ∧ p.index ≤ p.length
| _ => True

end Dsr

end Ns2
