import Nanograph.Core.Object

/-!
# Permissions and principals

`nanograph-core/src/object/security`: what a grant allows, and the principal that is built from
the records of a user. Databases and objects are named in a scope by their own identifier only,
which is unique within a tenant or a database but not beyond.
-/

namespace Nanograph.Core

open List

/-- Permission types for fine-grained access control. -/
inductive Permission where
  | clusterAlter
  | clusterView
  | metricsView
  | userManagement
  | configAlter
  | configView
  | tablespaceManagement
  | tablespaceAssign
  | tablespaceView
  | tablespaceList
  | tenantCreate
  | tenantDelete
  | tenantAlter
  | tenantView
  | tenantList
  | databaseAccess
  | databaseCreate
  | databaseDelete
  | databaseAlter
  | databaseView
  | databaseList
  | namespaceCreate
  | namespaceAlter
  | namespaceDelete
  | namespaceView
  | namespaceList
  | tableCreate
  | tableDelete
  | tableAlter
  | tableDataQuery
  | tableDataInsert
  | tableDataUpdate
  | tableDataDelete
  | tableIndexCreate
  | tableIndexDelete
  | functionExecute
  | functionCreate
  | functionDelete
  | functionAlter
  | grantPermission
  | revokePermission
  | tenantSuperuser
  | globalSuperuser
deriving DecidableEq

/-- A permission implies itself, and that of a global superuser implies all. -/
def Permission.implies (permission other : Permission) : Bool :=
  match permission with
  | .globalSuperuser => true
  | _ => permission = other

/-- Identifier of a tablespace. -/
structure TablespaceId where
  raw : UInt32
deriving DecidableEq

/-- Identifier of a user, a group or a role. -/
structure SubjectId where
  raw : UInt32
deriving DecidableEq

/-- Resource scope for permission grants. -/
inductive ResourceScope where
  | system
  | tablespace (tablespaceId : TablespaceId)
  | allTablespaces
  | tenant (tenantId : TenantId)
  | allTenants
  | database (databaseId : DatabaseId)
  | allDatabases
  | ofNamespace (namespaceId : ObjectId)
  | allNamespaces
  | table (tableId : ObjectId)
  | allTables
  | function (functionId : ObjectId)
  | allFunctions
  | index (indexId : ObjectId)
  | allIndexes
deriving DecidableEq

namespace ResourceScope

/-- Check if a scope is the one of the system. -/
def matchesSystem (scope : ResourceScope) : Bool := scope = .system

/-- Check if a scope covers a tenant. -/
def matchesTenant (scope : ResourceScope) (tenantId : TenantId) : Bool :=
  match scope with
  | .system | .allTenants => true
  | .tenant id => id = tenantId
  | _ => false

/-- Check if a scope covers a database. -/
def matchesDatabase (scope : ResourceScope) (tenantId : TenantId) (databaseId : DatabaseId) :
    Bool :=
  match scope with
  | .system | .allDatabases | .allTenants => true
  | .tenant id => id = tenantId
  | .database id => id = databaseId
  | _ => false

/-- Check if a scope covers an object: it covers all databases or the tenant, it has the
identifier of the database, or it is the scope of all such objects or of the object itself. -/
def matchesObject (every own scope : ResourceScope) (tenantId : TenantId)
    (databaseId : DatabaseId) : Bool :=
  scope.matchesDatabase tenantId databaseId || scope = every || scope = own

def matchesTable (scope : ResourceScope) (tenantId : TenantId) (databaseId : DatabaseId)
    (tableId : ObjectId) : Bool :=
  matchesObject .allTables (.table tableId) scope tenantId databaseId

/-- The scope of all indexes does not cover an index, but the scope of all tables does. -/
def matchesIndex (scope : ResourceScope) (tenantId : TenantId) (databaseId : DatabaseId)
    (indexId : ObjectId) : Bool :=
  matchesObject .allTables (.index indexId) scope tenantId databaseId

def matchesNamespace (scope : ResourceScope) (tenantId : TenantId) (databaseId : DatabaseId)
    (namespaceId : ObjectId) : Bool :=
  matchesObject .allNamespaces (.ofNamespace namespaceId) scope tenantId databaseId

def matchesFunction (scope : ResourceScope) (tenantId : TenantId) (databaseId : DatabaseId)
    (functionId : ObjectId) : Bool :=
  matchesObject .allFunctions (.function functionId) scope tenantId databaseId

end ResourceScope

/-- A permission with the scope at which it applies. -/
structure PermissionGrant where
  permission : Permission
  scope : ResourceScope
deriving DecidableEq

namespace PermissionGrant

variable (grant : PermissionGrant) (permission : Permission)

def allowsSystem : Bool :=
  grant.permission.implies permission && grant.scope.matchesSystem

def allowsTenant (tenantId : TenantId) : Bool :=
  grant.permission.implies permission && grant.scope.matchesTenant tenantId

def allowsDatabase (tenantId : TenantId) (databaseId : DatabaseId) : Bool :=
  grant.permission.implies permission && grant.scope.matchesDatabase tenantId databaseId

def allowsTable (tenantId : TenantId) (databaseId : DatabaseId) (tableId : ObjectId) : Bool :=
  grant.permission.implies permission && grant.scope.matchesTable tenantId databaseId tableId

def allowsIndex (tenantId : TenantId) (databaseId : DatabaseId) (indexId : ObjectId) : Bool :=
  grant.permission.implies permission && grant.scope.matchesIndex tenantId databaseId indexId

def allowsNamespace (tenantId : TenantId) (databaseId : DatabaseId) (namespaceId : ObjectId) :
    Bool :=
  grant.permission.implies permission &&
    grant.scope.matchesNamespace tenantId databaseId namespaceId

def allowsFunction (tenantId : TenantId) (databaseId : DatabaseId) (functionId : ObjectId) : Bool :=
  grant.permission.implies permission &&
    grant.scope.matchesFunction tenantId databaseId functionId

end PermissionGrant

/-- What a principal of a tenant takes from the record of its user. -/
structure SystemUserRecord where
  userId : SubjectId
  username : List Char
  grants : List PermissionGrant

structure TenantUserRecord where
  tenantId : TenantId
  groupIds : List SubjectId
  roleIds : List SubjectId

structure TenantGroupRecord where
  id : SubjectId
  roles : List SubjectId
  grants : List PermissionGrant

structure TenantRoleRecord where
  id : SubjectId
  tenant : TenantId
  grants : List PermissionGrant

/-- An authenticated user with the grants that were resolved for it. -/
structure SecurityPrincipal where
  userId : SubjectId
  username : List Char
  tenantId : Option TenantId
  effectiveGrants : List PermissionGrant

/-- A list without the items that are equal to the one before them. -/
def dropRepeated {α : Type} [DecidableEq α] : List α → List α
  | first :: second :: rest =>
    if first = second then dropRepeated (second :: rest)
    else first :: dropRepeated (second :: rest)
  | items => items

theorem mem_dropRepeated {α : Type} [DecidableEq α] {items : List α} {item : α} :
    item ∈ dropRepeated items ↔ item ∈ items := by
  fun_induction dropRepeated items with
  | case1 first rest ih => simp [ih]
  | case2 first second rest differs ih => simp [ih]
  | case3 => rfl

namespace SecurityPrincipal

variable (debug : PermissionGrant → String) (systemUser : SystemUserRecord)
  (tenantUser : TenantUserRecord) (tenantGroups : List TenantGroupRecord)
  (tenantRoles : List TenantRoleRecord)

/-- The grants of the roles with the given identifiers. -/
def roleGrants (roleIds : List SubjectId) : List PermissionGrant :=
  roleIds.flatMap fun roleId =>
    ((tenantRoles.find? (·.id = roleId)).map (·.grants)).getD []

/-- Resolve tenant-level permission grants. They are sorted by their text, and repeated ones
are dropped. -/
def resolveTenantGrants : List PermissionGrant :=
  let ofGroups := tenantUser.groupIds.flatMap fun groupId =>
    match tenantGroups.find? (·.id = groupId) with
    | some group => group.grants ++ roleGrants tenantRoles group.roles
    | none => []
  let grants := systemUser.grants ++ ofGroups ++ roleGrants tenantRoles tenantUser.roleIds
  dropRepeated (grants.mergeSort fun first second => debug first ≤ debug second)

/-- Create a principal of a tenant. -/
def fromTenantUser : SecurityPrincipal where
  userId := systemUser.userId
  username := systemUser.username
  tenantId := some tenantUser.tenantId
  effectiveGrants := resolveTenantGrants debug systemUser tenantUser tenantGroups tenantRoles

/-- A user of the system that may do everything. -/
def unrestricted : SecurityPrincipal := ⟨⟨0⟩, [], none, [⟨.globalSuperuser, .system⟩]⟩

section

variable (principal : SecurityPrincipal) (permission : Permission)

def hasSystemPermission : Bool := principal.effectiveGrants.any (·.allowsSystem permission)

def hasTenantPermission (tenantId : TenantId) : Bool :=
  principal.effectiveGrants.any (·.allowsTenant permission tenantId)

def hasDatabasePermission (tenantId : TenantId) (databaseId : DatabaseId) : Bool :=
  principal.effectiveGrants.any (·.allowsDatabase permission tenantId databaseId)

def hasTablePermission (tenantId : TenantId) (databaseId : DatabaseId) (tableId : ObjectId) :
    Bool :=
  principal.effectiveGrants.any (·.allowsTable permission tenantId databaseId tableId)

def hasIndexPermission (tenantId : TenantId) (databaseId : DatabaseId) (indexId : ObjectId) :
    Bool :=
  principal.effectiveGrants.any (·.allowsIndex permission tenantId databaseId indexId)

def hasNamespacePermission (tenantId : TenantId) (databaseId : DatabaseId)
    (namespaceId : ObjectId) : Bool :=
  principal.effectiveGrants.any (·.allowsNamespace permission tenantId databaseId namespaceId)

def hasFunctionPermission (tenantId : TenantId) (databaseId : DatabaseId)
    (functionId : ObjectId) : Bool :=
  principal.effectiveGrants.any (·.allowsFunction permission tenantId databaseId functionId)

end

end SecurityPrincipal

/-- What belongs to a tenant. -/
inductive Resource where
  | tenant (tenantId : TenantId)
  | database (tenantId : TenantId) (databaseId : DatabaseId)
  | ofNamespace (tenantId : TenantId) (databaseId : DatabaseId) (namespaceId : ObjectId)
  | table (tenantId : TenantId) (databaseId : DatabaseId) (tableId : ObjectId)
  | index (tenantId : TenantId) (databaseId : DatabaseId) (indexId : ObjectId)
  | function (tenantId : TenantId) (databaseId : DatabaseId) (functionId : ObjectId)

/-- The tenant that a resource belongs to. -/
def Resource.owner : Resource → TenantId
  | .tenant tenantId | .database tenantId _ | .ofNamespace tenantId _ _ | .table tenantId _ _
  | .index tenantId _ _ | .function tenantId _ _ => tenantId

/-- Check if a scope covers a resource. -/
def ResourceScope.covers (scope : ResourceScope) : Resource → Bool
  | .tenant tenantId => scope.matchesTenant tenantId
  | .database tenantId databaseId => scope.matchesDatabase tenantId databaseId
  | .ofNamespace tenantId databaseId namespaceId =>
    scope.matchesNamespace tenantId databaseId namespaceId
  | .table tenantId databaseId tableId => scope.matchesTable tenantId databaseId tableId
  | .index tenantId databaseId indexId => scope.matchesIndex tenantId databaseId indexId
  | .function tenantId databaseId functionId =>
    scope.matchesFunction tenantId databaseId functionId

/-- A scope that names a tenant, or one of its databases or objects by its own identifier. -/
def ResourceScope.Within (tenantId : TenantId) : ResourceScope → Prop
  | .tenant id => id = tenantId
  | .database _ | .ofNamespace _ | .table _ | .index _ | .function _ => True
  | .system | .tablespace _ | .allTablespaces | .allTenants | .allDatabases | .allNamespaces
  | .allTables | .allFunctions | .allIndexes => False

namespace SecurityPrincipal

/-- Check if a principal has a permission on a resource. -/
def hasPermissionOn (principal : SecurityPrincipal) (permission : Permission) : Resource → Bool
  | .tenant tenantId => principal.hasTenantPermission permission tenantId
  | .database tenantId databaseId =>
    principal.hasDatabasePermission permission tenantId databaseId
  | .ofNamespace tenantId databaseId namespaceId =>
    principal.hasNamespacePermission permission tenantId databaseId namespaceId
  | .table tenantId databaseId tableId =>
    principal.hasTablePermission permission tenantId databaseId tableId
  | .index tenantId databaseId indexId =>
    principal.hasIndexPermission permission tenantId databaseId indexId
  | .function tenantId databaseId functionId =>
    principal.hasFunctionPermission permission tenantId databaseId functionId

/-- A principal has no permission on anything that belongs to another tenant. -/
def Isolated (principal : SecurityPrincipal) (tenantId : TenantId) : Prop :=
  ∀ permission resource, resource.owner ≠ tenantId →
    principal.hasPermissionOn permission resource = false

theorem hasPermissionOn_eq (principal : SecurityPrincipal) (permission : Permission)
    (resource : Resource) :
    principal.hasPermissionOn permission resource = principal.effectiveGrants.any fun grant =>
        grant.permission.implies permission && grant.scope.covers resource := by
  cases resource <;> rfl

variable {debug : PermissionGrant → String} {systemUser : SystemUserRecord}
  {tenantUser : TenantUserRecord} {tenantGroups : List TenantGroupRecord}
  {tenantRoles : List TenantRoleRecord} {grant : PermissionGrant}

theorem mem_roleGrants {roleIds : List SubjectId} (granted : grant ∈ roleGrants tenantRoles roleIds) :
    ∃ role ∈ tenantRoles, grant ∈ role.grants := by
  obtain ⟨roleId, -, isGrant⟩ := mem_flatMap.mp granted
  cases found : tenantRoles.find? (·.id = roleId) with
  | none => simp [found] at isGrant
  | some role =>
    rw [found] at isGrant
    exact ⟨role, mem_of_find?_eq_some found, isGrant⟩

/-- All grants of a principal are those of some record. -/
theorem mem_resolveTenantGrants
    (granted : grant ∈ resolveTenantGrants debug systemUser tenantUser tenantGroups tenantRoles) :
    grant ∈ systemUser.grants ∨ (∃ group ∈ tenantGroups, grant ∈ group.grants) ∨
      ∃ role ∈ tenantRoles, grant ∈ role.grants := by
  rw [resolveTenantGrants, mem_dropRepeated, mem_mergeSort, mem_append, mem_append] at granted
  rcases granted with (ofUser | ofGroups) | ofRoles
  · exact .inl ofUser
  · obtain ⟨groupId, -, isGrant⟩ := mem_flatMap.mp ofGroups
    cases found : tenantGroups.find? (·.id = groupId) with
    | none => simp [found] at isGrant
    | some group =>
      rw [found] at isGrant
      rcases mem_append.mp isGrant with own | ofRole
      · exact .inr (.inl ⟨group, mem_of_find?_eq_some found, own⟩)
      · exact .inr (.inr (mem_roleGrants ofRole))
  · exact .inr (.inr (mem_roleGrants ofRoles))

theorem implies_self (permission : Permission) : permission.implies permission = true := by
  cases permission <;> rfl

/-- The scope of a tenant covers nothing that belongs to another one. -/
theorem covers_tenant {tenantId : TenantId} {resource : Resource}
    (foreign : resource.owner ≠ tenantId) :
    (ResourceScope.tenant tenantId).covers resource = false := by
  have object (every own : ResourceScope) (databaseId : DatabaseId) {owner : TenantId}
      (apart : owner ≠ tenantId) (notEvery : .tenant tenantId ≠ every)
      (notOwn : .tenant tenantId ≠ own) :
      ResourceScope.matchesObject every own (.tenant tenantId) owner databaseId = false := by
    simp [ResourceScope.matchesObject, ResourceScope.matchesDatabase, apart.symm, notEvery, notOwn]
  cases resource with
  | tenant owner => exact decide_eq_false (Ne.symm foreign)
  | database owner databaseId => exact decide_eq_false (Ne.symm foreign)
  | ofNamespace owner databaseId id | table owner databaseId id | index owner databaseId id
  | function owner databaseId id => exact object _ _ databaseId foreign nofun nofun

open ResourceScope in
/-- A scope that does not name the tenant covers something of every tenant. -/
theorem exists_covers {tenantId : TenantId} {scope : ResourceScope}
    (within : scope.Within tenantId) (unnamed : scope ≠ .tenant tenantId) (other : TenantId) :
    ∃ resource : Resource, resource.owner = other ∧ scope.covers resource = true := by
  have own (every scope : ResourceScope) : matchesObject every scope scope other ⟨0⟩ = true := by
    simp [matchesObject]
  cases scope with
  | tenant id => exact absurd (congrArg ResourceScope.tenant within) unnamed
  | database id => exact ⟨.database other id, rfl, decide_eq_true rfl⟩
  | ofNamespace id => exact ⟨.ofNamespace other ⟨0⟩ id, rfl, own .allNamespaces (.ofNamespace id)⟩
  | table id => exact ⟨.table other ⟨0⟩ id, rfl, own .allTables (.table id)⟩
  | index id => exact ⟨.index other ⟨0⟩ id, rfl, own .allTables (.index id)⟩
  | function id => exact ⟨.function other ⟨0⟩ id, rfl, own .allFunctions (.function id)⟩
  | system | tablespace | allTablespaces | allTenants | allDatabases | allNamespaces | allTables
  | allFunctions | allIndexes => exact within.elim

theorem exists_other (tenantId : TenantId) : ∃ other, other ≠ tenantId := by
  by_cases first : tenantId = ⟨0⟩
  · exact ⟨⟨1⟩, by rw [first]; decide⟩
  · exact ⟨⟨0⟩, Ne.symm first⟩

/-- Where all grants are scoped to a tenant or to a database or an object of it, the principal
has no permission beyond the tenant exactly if every grant that it ends up with names the
tenant itself. -/
theorem isolated_iff {tenantId : TenantId}
    (ofUser : ∀ grant ∈ systemUser.grants, grant.scope.Within tenantId)
    (ofGroups : ∀ group ∈ tenantGroups, ∀ grant ∈ group.grants, grant.scope.Within tenantId)
    (ofRoles : ∀ role ∈ tenantRoles, ∀ grant ∈ role.grants, grant.scope.Within tenantId) :
    (fromTenantUser debug systemUser tenantUser tenantGroups tenantRoles).Isolated tenantId ↔
      ∀ grant ∈ resolveTenantGrants debug systemUser tenantUser tenantGroups tenantRoles,
        grant.scope = .tenant tenantId := by
  have within : ∀ grant ∈ resolveTenantGrants debug systemUser tenantUser tenantGroups tenantRoles,
      grant.scope.Within tenantId := by
    intro grant granted
    rcases mem_resolveTenantGrants granted with user | ⟨group, mem, own⟩ | ⟨role, mem, own⟩
    · exact ofUser grant user
    · exact ofGroups group mem grant own
    · exact ofRoles role mem grant own
  constructor
  · intro isolated grant granted
    by_contra unnamed
    obtain ⟨other, isOther⟩ := exists_other tenantId
    obtain ⟨resource, owned, covered⟩ := exists_covers (within grant granted) unnamed other
    have denied := isolated grant.permission resource (owned ▸ isOther)
    rw [hasPermissionOn_eq, any_eq_false] at denied
    exact denied grant granted (by simp [implies_self, covered])
  · intro named permission resource foreign
    rw [hasPermissionOn_eq, any_eq_false]
    intro grant granted
    simp [named grant granted, covers_tenant foreign]

/-- The user has a grant on tenant 1, and so has a role of its group. -/
theorem isolated_in_own_tenant :
    (fromTenantUser (fun _ => "") ⟨⟨5⟩, ['u'], [⟨.databaseView, .tenant ⟨1⟩⟩]⟩ ⟨⟨1⟩, [⟨7⟩], []⟩
      [⟨⟨7⟩, [⟨8⟩], []⟩] [⟨⟨8⟩, ⟨1⟩, [⟨.tableCreate, .tenant ⟨1⟩⟩]⟩]).Isolated ⟨1⟩ := by
  refine (isolated_iff (by simp [ResourceScope.Within]) (by simp)
    (by simp [ResourceScope.Within])).mpr fun grant granted => ?_
  rcases mem_resolveTenantGrants granted with user | ⟨group, mem, own⟩ | ⟨role, mem, own⟩
  all_goals simp_all

/-- A role of tenant 1 that allows to create tables in database 0 allows it in database 0 of
tenant 2 as well. -/
theorem permission_in_other_tenant :
    let principal := fromTenantUser (fun _ => "") ⟨⟨5⟩, ['u'], []⟩ ⟨⟨1⟩, [], [⟨8⟩]⟩ []
      [⟨⟨8⟩, ⟨1⟩, [⟨.tableCreate, .database ⟨0⟩⟩]⟩]
    principal.hasDatabasePermission .tableCreate ⟨2⟩ ⟨0⟩ = true ∧ ¬principal.Isolated ⟨1⟩ := by
  intro principal
  have allowed : principal.hasDatabasePermission .tableCreate ⟨2⟩ ⟨0⟩ = true := by
    decide +kernel
  refine ⟨allowed, fun isolated => ?_⟩
  have denied := isolated .tableCreate (.database ⟨2⟩ ⟨0⟩) (by decide)
  exact Bool.false_ne_true (denied.symm.trans allowed)

end SecurityPrincipal

end Nanograph.Core
