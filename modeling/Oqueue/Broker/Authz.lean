import Oqueue.Core.Types

/-!
# What a principal may see
-/

namespace Oqueue.Broker

abbrev Principal := String

abbrev TopicGrants := List (Principal × TopicId)

namespace TopicGrants

def canSee (self : TopicGrants) (principal : Principal) (topic : TopicId) : Bool :=
  decide ((principal, topic) ∈ self)

end TopicGrants

structure AuthzContext where
  principal : Option Principal
  credentialsConfigured : Bool
  topicGrants : TopicGrants

def topicAuthorized (name : String) (authz : AuthzContext) : Bool :=
  if !authz.credentialsConfigured then true
  else match authz.principal with
    | none => false
    | some principal =>
      match TopicId.new name with
      | .error _ => false
      | .ok topicId => authz.topicGrants.canSee principal topicId

end Oqueue.Broker
