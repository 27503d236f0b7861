import Mathlib.Data.Int.Notation

/-!
# The protocol's error codes, as far as the handlers answer with them
-/

namespace Oqueue.ErrorCode

def unknownServerError : Int := -1
def none : Int := 0
def offsetOutOfRange : Int := 1
def unknownTopicOrPartition : Int := 3
def leaderNotAvailable : Int := 5
def requestTimedOut : Int := 7
def invalidTopicException : Int := 17
def notEnoughReplicas : Int := 19
def invalidRequiredAcks : Int := 21
def topicAuthorizationFailed : Int := 29
def groupAuthorizationFailed : Int := 30
def unsupportedSaslMechanism : Int := 33
def unsupportedVersion : Int := 35
def topicAlreadyExists : Int := 36
def invalidPartitions : Int := 37
def invalidReplicationFactor : Int := 38
def invalidRequest : Int := 42
def outOfOrderSequenceNumber : Int := 45
def duplicateSequenceNumber : Int := 46
def invalidProducerEpoch : Int := 47
def saslAuthenticationFailed : Int := 58
def offsetNotAvailable : Int := 78
def invalidRecord : Int := 87
def unknownTopicId : Int := 100

end Oqueue.ErrorCode
